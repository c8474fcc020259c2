/-
The sender's pin (`tls.rs`): the fingerprint a receiver prints, and the parser
of `--pin`.

`hex::decode` is modelled on characters: it takes an even number of
hexadecimal digits of either case and nothing else. A pin is the digest whose
digits are left of the argument without its separators, in any mix of cases
(`pin_grammar`).
-/
import AtpExperiment.Wire

namespace AtpExperiment

open Octets

/-- The pinned digest, a `[u8; 32]`. -/
structure Pin where
  bytes : Octets
  size : bytes.length = 32
  deriving DecidableEq

/-- `Identity::fingerprint` of a certificate. -/
def fingerprint (sha : Sha256) (cert : Octets) : String := hexEncode (sha.digest cert)

/-! ## Parser -/

/-- The value of a hexadecimal digit (`hex`). -/
def hexValue (c : Char) : Option Nat :=
  if 'A' ≤ c ∧ c ≤ 'F' then some (c.toNat - 'A'.toNat + 10)
  else if 'a' ≤ c ∧ c ≤ 'f' then some (c.toNat - 'a'.toNat + 10)
  else if '0' ≤ c ∧ c ≤ '9' then some (c.toNat - '0'.toNat)
  else none

/-- `hex::decode`. -/
def hexDecode : List Char → Option Octets
  | [] => some []
  | [_] => none
  | hi :: lo :: cs => do
    let h ← hexValue hi
    let l ← hexValue lo
    let bs ← hexDecode cs
    return UInt8.ofNat (h * 16 + l) :: bs

/-- What `parse_pin` skips. -/
def separator (c : Char) : Bool := c == ':' || c == ' '

/-- `cleaned`. -/
def cleaned (s : String) : List Char := s.toList.filter fun c => !separator c

/-- `parse_pin`; `debug` is how a string is printed for debugging. -/
def parsePin (debug : String → String) (s : String) : Except Error Pin :=
  match hexDecode ((cleaned s).map Char.toLower) with
  | none => .error (.transfer ("--pin is not valid hex: " ++ debug s))
  | some bytes =>
    if h : bytes.length = 32 then .ok ⟨bytes, h⟩
    else .error (.transfer "--pin must be a 32-byte (64 hex char) SHA-256")

/-! ## Grammar -/

/-- `c` is the digit `e`, a lower case one, in some case. -/
def Recased (e c : Char) : Prop := c = e ∨ c = e.toUpper

/-- The second list is the first with separators put in, anywhere. -/
inductive Separated : List Char → List Char → Prop
  | nil : Separated [] []
  | keep (c : Char) {cs s : List Char} (h : Separated cs s) : Separated (c :: cs) (c :: s)
  | put {c : Char} (hc : separator c = true) {cs s : List Char} (h : Separated cs s) :
    Separated cs (c :: s)

/-! ## Digits -/

theorem hexValue_of_le {c : Char} (h : 128 ≤ c.toNat) : hexValue c = none ∧ c.toLower = c := by
  have hnot : ∀ d : Char, d.toNat < 128 → ¬ c ≤ d := by
    intro d hd hle
    have : c.toNat ≤ d.toNat := hle
    omega
  refine ⟨?_, ?_⟩
  · simp only [hexValue, hnot 'F' (by decide), hnot 'f' (by decide), hnot '9' (by decide),
      and_false, if_false]
  · exact dif_neg fun hupper => hnot 'Z' (by decide) hupper.2

theorem eq_ofNat_or (c : Char) : (∃ k < 128, c = Char.ofNat k) ∨ 128 ≤ c.toNat := by
  rcases Nat.lt_or_ge c.toNat 128 with h | h
  · exact .inl ⟨c.toNat, h, (Char.ofNat_toNat c).symm⟩
  · exact .inr h

theorem hexValue_toLower (c : Char) : hexValue c.toLower = hexValue c := by
  have hascii : ∀ k < 128, hexValue (Char.ofNat k).toLower = hexValue (Char.ofNat k) := by decide
  rcases eq_ofNat_or c with ⟨k, hk, rfl⟩ | h
  · exact hascii k hk
  · rw [(hexValue_of_le h).2]

/-- Only the sixteen digits have a value, their own, in either case. -/
theorem hexValue_eq_some {c : Char} {n : Nat} :
    hexValue c = some n ↔ n < 16 ∧ Recased (hexDigit n) c := by
  have hascii : ∀ k < 128, ∀ m ∈ hexValue (Char.ofNat k), m < 16 ∧
      (Char.ofNat k = hexDigit m ∨ Char.ofNat k = (hexDigit m).toUpper) := by decide
  have hdigit : ∀ m < 16, hexValue (hexDigit m) = some m ∧
      hexValue (hexDigit m).toUpper = some m := by decide
  constructor
  · intro h
    rcases eq_ofNat_or c with ⟨k, hk, rfl⟩ | hc
    · exact hascii k hk n h
    · rw [(hexValue_of_le hc).1] at h
      cases h
  · rintro ⟨hn, rfl | rfl⟩
    · exact (hdigit n hn).1
    · exact (hdigit n hn).2

theorem Recased.digit {n : Nat} (hn : n < 16) {c : Char} (h : Recased (hexDigit n) c) :
    c.toLower = hexDigit n ∧ separator c = false := by
  have hdigit : ∀ m < 16, ((hexDigit m).toLower = hexDigit m ∧ separator (hexDigit m) = false) ∧
      (hexDigit m).toUpper.toLower = hexDigit m ∧ separator (hexDigit m).toUpper = false := by
    decide
  rcases h with rfl | rfl
  · exact (hdigit n hn).1
  · exact (hdigit n hn).2

/-! ## Strings of digits -/

theorem hexDecode_map_toLower (cs : List Char) :
    hexDecode (cs.map Char.toLower) = hexDecode cs := by
  induction cs using hexDecode.induct with
  | case1 => rfl
  | case2 => rfl
  | case3 hi lo cs ih => simp only [List.map_cons, hexDecode, hexValue_toLower, ih]

theorem hexDecode_pair {hi lo : Char} {cs : List Char} {bs : Octets} :
    hexDecode (hi :: lo :: cs) = some bs ↔ ∃ b bs', hexValue hi = some (b.toNat / 16) ∧
      hexValue lo = some (b.toNat % 16) ∧ hexDecode cs = some bs' ∧ bs = b :: bs' := by
  simp only [hexDecode, Option.bind_eq_bind, Option.bind_eq_some_iff, Option.pure_def,
    Option.some.injEq]
  constructor
  · rintro ⟨h, hh, l, hl, bs', hbs, rfl⟩
    have hlt := (hexValue_eq_some.mp hh).1
    have hlt' := (hexValue_eq_some.mp hl).1
    have hb : (UInt8.ofNat (h * 16 + l)).toNat = h * 16 + l := by
      rw [UInt8.toNat_ofNat']
      omega
    refine ⟨_, bs', ?_, ?_, hbs, rfl⟩
    · rw [hb, hh, show (h * 16 + l) / 16 = h by omega]
    · rw [hb, hl, show (h * 16 + l) % 16 = l by omega]
  · rintro ⟨b, bs', hh, hl, hbs, rfl⟩
    refine ⟨_, hh, _, hl, bs', hbs, ?_⟩
    rw [show b.toNat / 16 * 16 + b.toNat % 16 = b.toNat by omega, UInt8.ofNat_toNat]

/-- What decodes to `bs` is its digits, in any cases. -/
theorem hexDecode_eq_some {cs : List Char} {bs : Octets} :
    hexDecode cs = some bs ↔ List.Forall₂ Recased (hexDigits bs) cs := by
  induction cs using hexDecode.induct generalizing bs with
  | case1 =>
    constructor
    · intro h
      cases h
      exact .nil
    · intro h
      cases bs with
      | nil => rfl
      | cons => cases h
  | case2 c =>
    refine iff_of_false (fun h => by cases h) fun h => ?_
    cases bs with
    | nil => cases h
    | cons => cases h with | cons _ h => cases h
  | case3 hi lo cs ih =>
    rw [hexDecode_pair]
    constructor
    · rintro ⟨b, bs', hh, hl, hbs, rfl⟩
      exact .cons (hexValue_eq_some.mp hh).2 (.cons (hexValue_eq_some.mp hl).2 (ih.mp hbs))
    · intro h
      cases bs with
      | nil => cases h
      | cons b bs =>
        simp only [hexDigits, List.forall₂_cons] at h
        have hb := b.toNat_lt
        exact ⟨b, bs, hexValue_eq_some.mpr ⟨by omega, h.1⟩,
          hexValue_eq_some.mpr ⟨by omega, h.2.1⟩, ih.mpr h.2.2, rfl⟩

theorem mem_hexDigits {bs : Octets} {e : Char} (h : e ∈ hexDigits bs) :
    ∃ n < 16, e = hexDigit n := by
  induction bs with
  | nil => cases h
  | cons b bs ih =>
    have hb := b.toNat_lt
    simp only [hexDigits, List.mem_cons] at h
    rcases h with rfl | rfl | h
    · exact ⟨_, by omega, rfl⟩
    · exact ⟨_, by omega, rfl⟩
    · exact ih h

theorem forall₂_recased {es cs : List Char} (h : List.Forall₂ Recased es cs)
    (hes : ∀ e ∈ es, ∃ n < 16, e = hexDigit n) :
    cs.map Char.toLower = es ∧ ∀ c ∈ cs, separator c = false := by
  induction h with
  | nil => simp
  | cons hec _ ih =>
    rw [List.forall_mem_cons] at hes
    obtain ⟨⟨n, hn, rfl⟩, hes⟩ := hes
    obtain ⟨hlow, hsep⟩ := hec.digit hn
    obtain ⟨hmap, hseps⟩ := ih hes
    exact ⟨by rw [List.map_cons, hlow, hmap], List.forall_mem_cons.mpr ⟨hsep, hseps⟩⟩

theorem Separated.filter {cs s : List Char} (h : Separated cs s)
    (hcs : ∀ c ∈ cs, separator c = false) : s.filter (fun c => !separator c) = cs := by
  induction h with
  | nil => rfl
  | keep c h ih =>
    rw [List.forall_mem_cons] at hcs
    simp [hcs.1, ih hcs.2]
  | put hc h ih => simp [hc, ih hcs]

theorem parsePin_eq_ok {debug : String → String} {s : String} {d : Pin} :
    parsePin debug s = .ok d ↔ List.Forall₂ Recased (hexDigits d.bytes) (cleaned s) := by
  rw [← hexDecode_eq_some, ← hexDecode_map_toLower, parsePin]
  constructor
  · intro h
    split at h
    · cases h
    next bytes hbytes =>
    split at h
    · cases h
      exact hbytes
    · cases h
  · intro h
    simp only [h, d.size, dif_pos]

/-- **The grammar of a pin.** The argument of `--pin` parses to a digest exactly
when, without its colons and spaces, it is the 64 digits of the digest, each in
upper or lower case. So a fingerprint parses to its digest however it is cased
and wherever it is cut by separators, and two arguments that parse to one pin
are equal up to both. -/
theorem pin_grammar (debug : String → String) :
    (∀ s d, parsePin debug s = .ok d ↔ List.Forall₂ Recased (hexDigits d.bytes) (cleaned s)) ∧
    (∀ (sha : Sha256) (cert : Octets) (d : Pin) (cs : List Char) (s : String),
      sha.digest cert = d.bytes → List.Forall₂ Recased (fingerprint sha cert).toList cs →
        Separated cs s.toList → parsePin debug s = .ok d) ∧
    ∀ s t d, parsePin debug s = .ok d → parsePin debug t = .ok d →
      (cleaned s).map Char.toLower = (cleaned t).map Char.toLower := by
  refine ⟨fun s d => parsePin_eq_ok, fun sha cert d cs s hd hcs hs => ?_, fun s t d hs ht => ?_⟩
  · rw [fingerprint, hexEncode, hd, String.toList_ofList] at hcs
    rw [parsePin_eq_ok, cleaned, hs.filter (forall₂_recased hcs fun e => mem_hexDigits).2]
    exact hcs
  · rw [(forall₂_recased (parsePin_eq_ok.mp hs) fun e => mem_hexDigits).1,
      (forall₂_recased (parsePin_eq_ok.mp ht) fun e => mem_hexDigits).1]

end AtpExperiment

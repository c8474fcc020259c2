/-
Byte strings: fixed-width integers in little- and big-endian order, slices,
and positioned writes into a file image.

A `w`-byte encoding holds `n % 256^w`; `fromLe_leBytes` and
`leBytes_fromLe` are the two round trips, so an encoding determines its
number below `256^w` and every string of `w` bytes is an encoding.

`writeAt` is a positioned write into a flat file: bytes outside the written
extent keep their value, a write past the end extends the file with zeros.
-/
import Mathlib.Data.List.Basic
import Mathlib.Tactic.Ring

/-- A byte string. -/
abbrev Octets := List UInt8

namespace Octets

/-! ## Fixed-width integers -/

/-- The `w` low bytes of `n`, least significant first. -/
def leBytes : Nat → Nat → Octets
  | 0, _ => []
  | w + 1, n => UInt8.ofNat n :: leBytes w (n / 256)

/-- The `w` low bytes of `n`, most significant first. -/
def beBytes (w n : Nat) : Octets := (leBytes w n).reverse

/-- The number a little-endian string holds. -/
def fromLe : Octets → Nat
  | [] => 0
  | b :: bs => b.toNat + 256 * fromLe bs

@[simp] theorem length_leBytes (w n : Nat) : (leBytes w n).length = w := by
  induction w generalizing n with
  | zero => rfl
  | succ w ih => simp [leBytes, ih]

@[simp] theorem length_beBytes (w n : Nat) : (beBytes w n).length = w := by
  simp [beBytes]

theorem fromLe_leBytes (w n : Nat) : fromLe (leBytes w n) = n % 256 ^ w := by
  induction w generalizing n with
  | zero => simp [leBytes, fromLe, Nat.mod_one]
  | succ w ih =>
    have hbyte : (UInt8.ofNat n).toNat = n % 256 := UInt8.toNat_ofNat'
    rw [leBytes, fromLe, ih, hbyte, Nat.pow_succ', Nat.mod_mul (a := 256)]

theorem fromLe_lt (bs : Octets) : fromLe bs < 256 ^ bs.length := by
  induction bs with
  | nil => simp [fromLe]
  | cons b bs ih =>
    have hb := b.toNat_lt
    simp only [fromLe, List.length_cons, Nat.pow_succ']
    omega

theorem leBytes_fromLe (bs : Octets) : leBytes bs.length (fromLe bs) = bs := by
  induction bs with
  | nil => rfl
  | cons b bs ih =>
    have hb := b.toNat_lt
    have hdiv : (b.toNat + 256 * fromLe bs) / 256 = fromLe bs := by omega
    simp only [List.length_cons, fromLe, leBytes, hdiv, ih, List.cons.injEq, and_true]
    apply UInt8.toNat.inj
    simp only [UInt8.toNat_ofNat']
    omega

theorem leBytes_inj {w m n : Nat} (hm : m < 256 ^ w) (hn : n < 256 ^ w)
    (h : leBytes w m = leBytes w n) : m = n := by
  have := congrArg fromLe h
  rwa [fromLe_leBytes, fromLe_leBytes, Nat.mod_eq_of_lt hm, Nat.mod_eq_of_lt hn] at this

theorem beBytes_inj {w m n : Nat} (hm : m < 256 ^ w) (hn : n < 256 ^ w)
    (h : beBytes w m = beBytes w n) : m = n :=
  leBytes_inj hm hn (List.reverse_injective h)

/-! ## Slices -/

/-- The bytes of `bs` at positions `lo`, …, `hi - 1`. -/
def slice (bs : Octets) (lo hi : Nat) : Octets := (bs.drop lo).take (hi - lo)

theorem length_slice (bs : Octets) (lo hi : Nat) :
    (slice bs lo hi).length = min (hi - lo) (bs.length - lo) := by
  simp [slice]

theorem slice_append {a b c : Octets} {lo hi : Nat} (ha : a.length = lo) (hb : b.length = hi - lo) :
    slice (a ++ b ++ c) lo hi = b := by
  rw [slice, List.append_assoc, List.drop_left' ha, List.take_left' hb]

theorem getElem?_slice (bs : Octets) (lo hi i : Nat) :
    (slice bs lo hi)[i]? = if i < hi - lo then bs[lo + i]? else none := by
  simp only [slice, List.getElem?_take, List.getElem?_drop]

/-! ## Positioned writes -/

/-- `d` written at offset `off` of a file holding `f`. -/
def writeAt (f : Octets) (off : Nat) (d : Octets) : Octets :=
  if d = [] then f
  else f.take off ++ List.replicate (off - f.length) 0 ++ d ++ f.drop (off + d.length)

theorem length_writeAt {f d : Octets} {off : Nat} (h : off + d.length ≤ f.length) :
    (writeAt f off d).length = f.length := by
  unfold writeAt
  split
  · rfl
  · simp only [List.length_append, List.length_take, List.length_replicate, List.length_drop]
    omega

/-- Inside the file, a positioned write replaces its extent and nothing else. -/
theorem getElem?_writeAt {f d : Octets} {off : Nat} (h : off + d.length ≤ f.length) (i : Nat) :
    (writeAt f off d)[i]? = if off ≤ i ∧ i < off + d.length then d[i - off]? else f[i]? := by
  unfold writeAt
  split
  · next hd =>
    have : ¬ (off ≤ i ∧ i < off + d.length) := by subst hd; simp
    rw [if_neg this]
  · have hpad : off - f.length = 0 := by omega
    rw [hpad, List.replicate_zero, List.append_nil, List.append_assoc]
    have htake : (f.take off).length = off := by simp; omega
    rcases Nat.lt_or_ge i off with hi | hi
    · have : ¬ (off ≤ i ∧ i < off + d.length) := by omega
      rw [List.getElem?_append_left (by omega), if_neg this, List.getElem?_take, if_pos hi]
    · rw [List.getElem?_append_right (by omega), htake]
      rcases Nat.lt_or_ge i (off + d.length) with hj | hj
      · rw [List.getElem?_append_left (by omega), if_pos ⟨hi, hj⟩]
      · have : ¬ (off ≤ i ∧ i < off + d.length) := by omega
        rw [List.getElem?_append_right (by omega), if_neg this, List.getElem?_drop]
        congr 1; omega

/-- A file holds `d` at `off`. -/
def HoldsAt (f : Octets) (off : Nat) (d : Octets) : Prop :=
  slice f off (off + d.length) = d

theorem HoldsAt.getElem? {f d : Octets} {off : Nat} (h : HoldsAt f off d) {i : Nat}
    (hi : i < d.length) : f[off + i]? = d[i]? := by
  have := congrArg (·[i]?) h
  simp only [getElem?_slice] at this
  rwa [if_pos (by omega)] at this

theorem holdsAt_of_getElem? {f d : Octets} {off : Nat}
    (h : ∀ i, i < d.length → f[off + i]? = d[i]?) : HoldsAt f off d := by
  apply List.ext_getElem?
  intro i
  rw [getElem?_slice]
  split
  · next hi => exact h i (by omega)
  · next hi => rw [List.getElem?_eq_none (by omega)]

theorem holdsAt_writeAt {f d : Octets} {off : Nat} (h : off + d.length ≤ f.length) :
    HoldsAt (writeAt f off d) off d := by
  refine holdsAt_of_getElem? fun i hi => ?_
  rw [getElem?_writeAt h, if_pos ⟨by omega, by omega⟩]
  congr 1; omega

theorem HoldsAt.writeAt {f d e : Octets} {off off' : Nat} (h : HoldsAt f off d)
    (hin : off' + e.length ≤ f.length)
    (hdis : off + d.length ≤ off' ∨ off' + e.length ≤ off) :
    HoldsAt (writeAt f off' e) off d := by
  refine holdsAt_of_getElem? fun i hi => ?_
  have : ¬ (off' ≤ off + i ∧ off + i < off' + e.length) := by omega
  rw [getElem?_writeAt hin, if_neg this, h.getElem? hi]

end Octets

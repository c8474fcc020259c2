/-
A byte stream as its reads return it (`AsyncRead`, `read_exact`).

A stream is the list of pieces that are ready one after the other; a read
takes a piece, or the front of one that is longer than the buffer, and returns
nothing only at the end. `readExact` loops until the buffer is full:
`readExact_append` and `readExact_short` say that what it returns depends on
the bytes of the stream and not on the pieces.
-/
import Mathlib.Data.List.Basic

namespace StreamReader

variable {α : Type*}

/-- Fills a buffer of `n` elements; `none` is an unexpected end of the stream.
The rest of the stream is returned with it. -/
def readExact : Nat → List (List α) → Option (List α × List (List α))
  | 0, cs => some ([], cs)
  | _ + 1, [] => none
  | n + 1, c :: cs =>
    if c = [] then none
    else if c.length ≤ n + 1 then
      (readExact (n + 1 - c.length) cs).map fun r => (c ++ r.1, r.2)
    else some (c.take (n + 1), c.drop (n + 1) :: cs)

/-- The end of a stream is the only read that returns nothing. -/
def Ready (cs : List (List α)) : Prop := ∀ c ∈ cs, c ≠ []

theorem Ready.head {c : List α} {cs : List (List α)} (h : Ready (c :: cs)) : c ≠ [] :=
  h c List.mem_cons_self

theorem Ready.tail {c : List α} {cs : List (List α)} (h : Ready (c :: cs)) : Ready cs :=
  fun d hd => h d (List.mem_cons_of_mem c hd)

/-- A stream that starts with `as` fills a buffer of that size with `as`. -/
theorem readExact_append {cs : List (List α)} {as bs : List α} (hcs : Ready cs)
    (h : cs.flatten = as ++ bs) :
    ∃ rest, readExact as.length cs = some (as, rest) ∧ Ready rest ∧ rest.flatten = bs := by
  induction cs generalizing as with
  | nil =>
    obtain ⟨rfl, rfl⟩ := List.append_eq_nil_iff.mp h.symm
    exact ⟨[], rfl, hcs, rfl⟩
  | cons c cs ih =>
    rw [List.flatten_cons] at h
    rcases as with _ | ⟨a, as⟩
    · exact ⟨c :: cs, rfl, hcs, h⟩
    · simp only [List.length_cons, readExact, if_neg hcs.head]
      rcases List.append_eq_append_iff.mp h with ⟨more, has, hcsf⟩ | ⟨more, hc, hbs⟩
      · -- The piece fits: the rest of the buffer is filled from the others.
        have hlen : (a :: as).length = c.length + more.length := by rw [has, List.length_append]
        obtain ⟨rest, hread, hready, hrest⟩ := ih hcs.tail hcsf
        refine ⟨rest, ?_, hready, hrest⟩
        rw [List.length_cons] at hlen
        rw [if_pos (by omega), show as.length + 1 - c.length = more.length by omega, hread, has]
        rfl
      · rcases more with _ | ⟨m, more⟩
        · rw [List.append_nil] at hc
          obtain ⟨rest, hread, hready, hrest⟩ :=
            ih hcs.tail (show cs.flatten = [] ++ bs from hbs.symm)
          refine ⟨rest, ?_, hready, hrest⟩
          rw [hc, if_pos (by simp), List.length_cons, Nat.sub_self]
          rw [show readExact 0 cs = some ([], rest) from hread]
          simp
        · refine ⟨(m :: more) :: cs, ?_, ?_, hbs.symm⟩
          · rw [hc, if_neg (by simp), List.take_left' (by simp), List.drop_left' (by simp)]
          · intro d hd
            rcases List.mem_cons.mp hd with rfl | hd
            · exact List.cons_ne_nil _ _
            · exact hcs.tail d hd

/-- A stream that ends early does not fill the buffer. -/
theorem readExact_short {cs : List (List α)} {n : Nat} (h : cs.flatten.length < n) :
    readExact n cs = none := by
  induction cs generalizing n with
  | nil =>
    cases n with
    | zero => cases h
    | succ n => rfl
  | cons c cs ih =>
    rw [List.flatten_cons, List.length_append] at h
    cases n with
    | zero => cases h
    | succ n =>
      simp only [readExact]
      split
      · rfl
      · rw [if_pos (by omega), ih (by omega)]
        rfl

end StreamReader

/-
A reliable, ordered, two-way stream of messages that can be cut.

Each direction is a `Pipe`. What a party does on the stream is an `Act`, and
`Io` says what an act does to the pipe the party reads and the one it writes.
A cut may drop any suffix of what is under way; after it nothing more arrives
and the reader fails once it has read the rest. `Carried` is what one direction
keeps: what was read and what is under way, in the order it was written.
-/
import Mathlib.Data.List.Basic

namespace Duplex

variable {F : Type}

/-- One direction. -/
structure Pipe (F : Type) where
  /-- Written and not yet read, oldest first. -/
  queue : List F
  cut : Bool

/-- What a party does on the stream in one step. -/
inductive Act (F : Type)
  | tau
  | read (f : F)
  | readFail
  /-- A write, and whether the party is told that it succeeded. -/
  | write (f : F) (ok : Bool)

/-- `Io a i o i' o'`: the act `a` takes the party's input pipe from `i` to
`i'` and its output pipe from `o` to `o'`. A write after a cut is lost; one
that fails may have been delivered or not, and cuts the pipe. -/
inductive Io : Act F → Pipe F → Pipe F → Pipe F → Pipe F → Prop
  | tau {i o : Pipe F} : Io .tau i o i o
  | read {i o : Pipe F} {f : F} {q : List F} (h : i.queue = f :: q) :
    Io (.read f) i o { i with queue := q } o
  | readFail {i o : Pipe F} (h : i.queue = []) (hc : i.cut = true) : Io .readFail i o i o
  | write {i o : Pipe F} {f : F} {ok : Bool} (h : o.cut = false) :
    Io (.write f ok) i o i ⟨o.queue ++ [f], !ok⟩
  | lost {i o : Pipe F} {f : F} {ok : Bool} (h : ok = false ∨ o.cut = true) :
    Io (.write f ok) i o i { o with cut := true }

/-- The pipe is cut; at most `n` messages still arrive. -/
def Pipe.cutAt (p : Pipe F) (n : Nat) : Pipe F := ⟨p.queue.take n, true⟩

theorem Pipe.mem_cutAt {p : Pipe F} {n : Nat} {f : F} (h : f ∈ (p.cutAt n).queue) : f ∈ p.queue :=
  List.mem_of_mem_take h

theorem Io.mem_in {a : Act F} {i o i' o' : Pipe F} (h : Io a i o i' o') {f : F}
    (hf : f ∈ i'.queue) : f ∈ i.queue := by
  cases h with
  | read h => rw [h]; exact List.mem_cons_of_mem _ hf
  | tau | readFail | write | lost => exact hf

theorem Io.read_mem {f : F} {i o i' o' : Pipe F} (h : Io (.read f) i o i' o') : f ∈ i.queue := by
  cases h with
  | read h => rw [h]; exact List.mem_cons_self

theorem Io.mem_out {a : Act F} {i o i' o' : Pipe F} (h : Io a i o i' o') {f : F}
    (hf : f ∈ o'.queue) : f ∈ o.queue ∨ ∃ ok, a = .write f ok := by
  cases h with
  | write h =>
    rcases List.mem_append.mp hf with hf | hf
    · exact .inl hf
    · exact .inr ⟨_, by rw [List.mem_singleton.mp hf]⟩
  | tau | read | readFail | lost => exact .inl hf

/-! ## Order -/

/-- What an act reads. -/
def Act.got : Act F → List F
  | .read f => [f]
  | _ => []

/-- What an act writes, delivered or not. -/
def Act.put : Act F → List F
  | .write f _ => [f]
  | _ => []

theorem Io.in_eq {a : Act F} {i o i' o' : Pipe F} (h : Io a i o i' o') (ha : a.got = []) :
    i' = i := by
  cases h with
  | read => cases ha
  | tau | readFail | write | lost => rfl

theorem Io.out_of_cut {a : Act F} {i o i' o' : Pipe F} (h : Io a i o i' o') (hc : o.cut = true) :
    o'.cut = true ∧ o'.queue = o.queue := by
  cases h with
  | write hc' => cases hc.symm.trans hc'
  | lost => exact ⟨rfl, rfl⟩
  | tau | read | readFail => exact ⟨hc, rfl⟩

/-- Of everything written, what was read and then what is under way come first;
with no cut, they are all of it. -/
structure Carried (p : Pipe F) (put got : List F) : Prop where
  order : got ++ p.queue <+: put
  whole : p.cut = false → got ++ p.queue = put

theorem carried_nil : Carried (⟨[], false⟩ : Pipe F) [] [] where
  order := List.prefix_rfl
  whole _ := rfl

namespace Carried

variable {a : Act F} {i o i' o' : Pipe F} {put got : List F}

theorem read (h : Carried i put got) (hio : Io a i o i' o') : Carried i' put (got ++ a.got) := by
  cases hio with
  | @read _ _ f q hq =>
    have he : got ++ i.queue = got ++ [f] ++ q := by rw [hq, List.append_cons]
    exact ⟨he ▸ h.order, he ▸ h.whole⟩
  | tau | readFail | write | lost =>
    simp only [Act.got, List.append_nil]
    exact h

theorem write (h : Carried o put got) (hio : Io a i o i' o') : Carried o' (put ++ a.put) got := by
  cases hio with
  | write hc =>
    have he := h.whole hc
    refine ⟨?_, fun _ => ?_⟩ <;> rw [← List.append_assoc, he]
    · exact List.prefix_rfl
    · rfl
  | lost => exact ⟨h.order.trans (List.prefix_append _ _), fun hc => by cases hc⟩
  | tau | read | readFail =>
    simp only [Act.put, List.append_nil]
    exact h

theorem cutAt (h : Carried i put got) (n : Nat) : Carried (i.cutAt n) put got where
  order := ((List.prefix_append_right_inj got).mpr (List.take_prefix n _)).trans h.order
  whole hc := by cases hc

end Carried

end Duplex

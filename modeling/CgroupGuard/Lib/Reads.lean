import Mathlib.Data.List.Basic
/-!
# Reads — programs that read cells, one after the other

A program either returns or reads a cell and goes on with what is there.  `run` is its result, nothing if it reads a
cell that is not there, and `cells` is what it reads on the way.  Two memories with the same contents in those cells are
the same to it (`run_congr`).
-/

inductive Reads (ι β α : Type) where
  | ret (a : α)
  | read (i : ι) (next : β → Reads ι β α)

namespace Reads

variable {ι β α : Type}

def run (mem : ι → Option β) : Reads ι β α → Option α
  | ret a => some a
  | read i next =>
    match mem i with
    | none => none
    | some b => (next b).run mem

/-- The cells read, in order; nothing is read behind a cell that is not there. -/
def cells (mem : ι → Option β) : Reads ι β α → List ι
  | ret _ => []
  | read i next =>
    i :: match mem i with
      | none => []
      | some b => (next b).cells mem

@[simp] theorem run_ret (mem : ι → Option β) (a : α) : (ret a : Reads ι β α).run mem = some a := rfl

@[simp] theorem cells_ret (mem : ι → Option β) (a : α) : (ret a : Reads ι β α).cells mem = [] := rfl

variable {mem mem' : ι → Option β} {i : ι} {next : β → Reads ι β α} {b : β}

theorem run_read (h : mem i = some b) : (read i next).run mem = (next b).run mem := by rw [run, h]

theorem cells_read (h : mem i = some b) : (read i next).cells mem = i :: (next b).cells mem := by rw [cells, h]

/-- **A program has a result when every cell it reads is there.** -/
theorem isSome_run_iff : ∀ p : Reads ι β α, (p.run mem).isSome = true ↔ ∀ i ∈ p.cells mem, (mem i).isSome = true
  | ret a => by simp
  | read i next => by
    cases h : mem i with
    | none => simp [run, cells, h]
    | some b => simp [run_read h, cells_read h, h, isSome_run_iff (next b)]

/-- **A program sees no other cells than those it reads.** -/
theorem run_congr : ∀ p : Reads ι β α, (∀ i ∈ p.cells mem, mem i = mem' i) → p.run mem = p.run mem'
  | ret _, _ => rfl
  | read i next, h => by
    have hi : mem i = mem' i := h i (by rw [cells]; exact List.mem_cons_self)
    cases hb : mem i with
    | none => rw [run, run, hb, ← hi, hb]
    | some b =>
      rw [run_read hb, run_read (hi ▸ hb)]
      refine run_congr (next b) (fun j hj => h j ?_)
      rw [cells_read hb]
      exact List.mem_cons_of_mem _ hj

end Reads

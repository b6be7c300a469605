import FilePeeker.Lib.Utf8
import Mathlib.Data.List.DropRight

/-!
# What a shell does to bytes

Command substitution and `tr`, as a POSIX shell has them in the POSIX locale, where
a character is a byte.  A shell keeps no NUL in a variable: `substitute` drops them,
as `sh` and `dash` do, and the newlines at the end.
-/

namespace FilePeeker

namespace Shell

variable {c first last target : UInt8} {set input output : Bytes}

def newline : UInt8 := 0x0A

/-- `"$VARIABLE"`, where one that is not set is empty. -/
def expand (value : Option Bytes) : Bytes := value.getD []

/-- `$(command)`. -/
def substitute (output : Bytes) : Bytes := (output.filter (· ≠ 0)).rdropWhile (· = newline)

/-- `tr -d set`. -/
def trDelete (set input : Bytes) : Bytes := input.filter (· ∉ set)

/-- `tr` of the range from `first` to `last` onto the one from `target` on. -/
def trRange (first last target : UInt8) (input : Bytes) : Bytes :=
  input.map fun c => if first ≤ c ∧ c ≤ last then c - first + target else c

theorem rdropWhile_of_forall {α : Type*} {p : α → Bool} {l : List α} (h : ∀ x ∈ l, ¬ p x) :
    l.rdropWhile p = l :=
  List.rdropWhile_eq_self_iff.mpr fun hl => h _ (List.getLast_mem hl)

/-- Bytes without a NUL and without a newline come out as they are. -/
theorem substitute_plain (h : ∀ c ∈ output, c ≠ 0 ∧ c ≠ newline) : substitute output = output := by
  have hnul : output.filter (· ≠ 0) = output :=
    List.filter_eq_self.mpr fun c hc => by simpa using (h c hc).1
  rw [substitute, hnul]
  exact rdropWhile_of_forall fun c hc => by simpa using (h c hc).2

/-- What takes the newlines out need not know which of them a substitution took. -/
theorem trDelete_substitute (h : newline ∈ set) :
    trDelete set (substitute output) = trDelete (0 :: set) output := by
  have hrest : trDelete set ((output.filter (· ≠ 0)).rtakeWhile (· = newline)) = [] := by
    refine List.filter_eq_nil_iff.mpr fun c hc => ?_
    have heq := List.mem_rtakeWhile_imp hc
    rw [of_decide_eq_true heq]
    simpa using h
  calc trDelete set (substitute output)
      = trDelete set (substitute output) ++
          trDelete set ((output.filter (· ≠ 0)).rtakeWhile (· = newline)) := by
        rw [hrest, List.append_nil]
    _ = trDelete set (output.filter (· ≠ 0)) := by
        rw [trDelete, trDelete, ← List.filter_append, substitute,
          List.rdropWhile_append_rtakeWhile]
        rfl
    _ = trDelete (0 :: set) output := by
        rw [trDelete, trDelete, List.filter_filter]
        refine List.filter_congr fun c _ => ?_
        simp [and_comm]

end Shell

end FilePeeker

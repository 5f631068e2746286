import Mathlib.Data.List.Induction
import Mathlib.Data.List.Nodup
import Mathlib.Logic.Function.Basic
import Mathlib.Tactic.Common

/-! # Straight-line programs

Lists of instructions, each of which assigns one variable a value computed from the variables it
reads and from the instructions before it.

* `Ordered`: every variable is assigned once, and read only after its assignment.
* `eval_eq`: in the final environment of an ordered program every instruction's equation holds.
* `Ordered.induction`: what holds of an instruction's variable when it holds of those it reads,
  holds of every variable of the program.
* `Ordered.unique`: the equations have one solution. -/

namespace StraightLine

variable {I V α : Type} [DecidableEq V]

/-- The variable an instruction assigns, those it reads, and the value it assigns in an environment,
after given instructions. -/
structure Semantics (I V α : Type) where
  out : I → V
  reads : I → List V
  value : List I → I → (V → α) → α
  /-- The value depends on the variables read only. -/
  value_congr : ∀ done i env env', (∀ v ∈ reads i, env v = env' v) → value done i env = value done i env'

/-- Every variable is assigned once and read only after its assignment. -/
structure Ordered (out : I → V) (reads : I → List V) (prog : List I) : Prop where
  nodup : (prog.map out).Nodup
  ordered : ∀ done i rest, prog = done ++ i :: rest → ∀ v ∈ reads i, v ∈ done.map out

/-- Run the instructions `rest` after `done`. -/
def evalFrom (sem : Semantics I V α) : List I → List I → (V → α) → V → α
  | _, [], env => env
  | done, i :: rest, env =>
      evalFrom sem (done ++ [i]) rest (Function.update env (sem.out i) (sem.value done i env))

/-- Run a program. -/
def eval (sem : Semantics I V α) (prog : List I) (env : V → α) : V → α := evalFrom sem [] prog env

/-- A table in which the equation of every instruction holds. -/
def Solves (sem : Semantics I V α) (prog : List I) (table : V → α) : Prop :=
  ∀ done i rest, prog = done ++ i :: rest → table (sem.out i) = sem.value done i table

theorem evalFrom_of_notMem (sem : Semantics I V α) : ∀ (rest done : List I) (env : V → α) {v : V},
    v ∉ rest.map sem.out → evalFrom sem done rest env v = env v
  | [], _, _, _, _ => rfl
  | i :: rest, done, env, v, hv => by
      rw [List.map_cons, List.mem_cons, not_or] at hv
      rw [evalFrom, evalFrom_of_notMem sem rest _ _ hv.2, Function.update_of_ne hv.1]

omit [DecidableEq V] in
theorem Ordered.notMem {out : I → V} {reads : I → List V} {prog : List I} (h : Ordered out reads prog)
    {done rest : List I} {i : I} (he : prog = done ++ i :: rest) {v : V} (hv : v ∈ (done ++ [i]).map out) :
    v ∉ rest.map out := by
  have hnd := h.nodup
  rw [he, show done ++ i :: rest = (done ++ [i]) ++ rest by simp, List.map_append] at hnd
  exact fun hv' => (List.nodup_append.mp hnd).2.2 v hv v hv' rfl

/-- **The equations hold** in the final environment. -/
theorem eval_eq (sem : Semantics I V α) {prog : List I} (h : Ordered sem.out sem.reads prog) (env : V → α) :
    Solves sem prog (eval sem prog env) := by
  -- the environment in which an instruction runs is the final one at what it reads
  have hsplit : ∀ (done mid rest : List I) (env : V → α),
      evalFrom sem mid (done ++ rest) env = evalFrom sem (mid ++ done) rest (evalFrom sem mid done env) := by
    intro done
    induction done with
    | nil => intro mid rest env; simp [evalFrom]
    | cons i done ih =>
        intro mid rest env
        rw [List.cons_append, evalFrom, ih, evalFrom, List.append_assoc]
        rfl
  intro done i rest he
  have hfinal : eval sem prog env = evalFrom sem (done ++ [i]) rest
      (Function.update (evalFrom sem [] done env) (sem.out i) (sem.value done i (evalFrom sem [] done env))) := by
    rw [eval, he, hsplit]
    rfl
  have hi : sem.out i ∉ rest.map sem.out := h.notMem he (by simp)
  have hout : eval sem prog env (sem.out i) = sem.value done i (evalFrom sem [] done env) := by
    rw [hfinal, evalFrom_of_notMem sem rest _ _ hi, Function.update_self]
  rw [hout]
  apply sem.value_congr
  intro v hv
  have hdone := h.ordered done i rest he v hv
  have hne : v ≠ sem.out i := by
    rintro rfl
    have hnd := h.nodup
    rw [he, List.map_append, List.map_cons] at hnd
    exact (List.nodup_append.mp hnd).2.2 _ hdone _ List.mem_cons_self rfl
  rw [hfinal, evalFrom_of_notMem sem rest _ _ (h.notMem he (by simp at hdone ⊢; exact .inl hdone)),
    Function.update_of_ne hne]

omit [DecidableEq V] in
/-- **Induction over an ordered program.** -/
theorem Ordered.induction {out : I → V} {reads : I → List V} {prog : List I} (h : Ordered out reads prog)
    {motive : V → Prop}
    (step : ∀ done i rest, prog = done ++ i :: rest → (∀ v ∈ reads i, motive v) → motive (out i)) :
    ∀ v ∈ prog.map out, motive v := by
  have hpre : ∀ done rest, prog = done ++ rest → ∀ v ∈ done.map out, motive v := by
    intro done
    induction done using List.reverseRecOn with
    | nil => simp
    | append_singleton done i ih =>
        intro rest he v hv
        have hdone := ih (i :: rest) (by simpa using he)
        rw [List.map_append, List.mem_append] at hv
        obtain hv | hv := hv
        · exact hdone v hv
        · obtain rfl : v = out i := by simpa using hv
          exact step done i rest (by simpa using he) fun v hv =>
            hdone v (h.ordered done i rest (by simpa using he) v hv)
  exact hpre prog [] (by simp)

omit [DecidableEq V] in
theorem Ordered.unique {sem : Semantics I V α} {prog : List I} (h : Ordered sem.out sem.reads prog)
    {table table' : V → α} (ht : Solves sem prog table) (ht' : Solves sem prog table') :
    ∀ v ∈ prog.map sem.out, table v = table' v := by
  refine h.induction fun done i rest he hreads => ?_
  rw [ht done i rest he, ht' done i rest he]
  exact sem.value_congr done i _ _ hreads

end StraightLine

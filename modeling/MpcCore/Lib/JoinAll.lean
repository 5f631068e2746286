import MpcCore.Lib.Outcome

/-! # Tasks that run side by side

How a join of concurrent tasks can end, when no task touches the state of another and each is given
by how it ends alone.

* `TryJoinAll`: all values, in the order of the tasks; or a failure of one of them, whichever
  completes first.  Where none fails, a task that never ends keeps the join from ending.
* `TryJoinAll.of_map_ok`, `TryJoinAll.eq_ok`: a join succeeds exactly when all its tasks do.
* `tryJoinInOrder`, `TryJoinAll.inOrder`: one of the ways, which can be computed.
* `Outcome.both` and `joinAll` are the joins that wait for every task, also when one has failed. -/

universe u v w

variable {ε : Type u} {α : Type v}

/-- How a join of tasks can end. -/
inductive TryJoinAll : List (Outcome ε α) → Outcome ε (List α) → Prop where
  | ok (values : List α) : TryJoinAll (values.map .ok) (.ok values)
  | err {tasks : List (Outcome ε α)} {e : ε} : .err e ∈ tasks → TryJoinAll tasks (.err e)
  | panic {tasks : List (Outcome ε α)} : .panic ∈ tasks → TryJoinAll tasks .panic
  | hang {tasks : List (Outcome ε α)} :
      .hang ∈ tasks → (∀ t ∈ tasks, t = .hang ∨ ∃ a, t = .ok a) → TryJoinAll tasks .hang

namespace TryJoinAll

variable {tasks : List (Outcome ε α)} {values : List α} {r : Outcome ε (List α)}

theorem eq_ok (h : TryJoinAll tasks (.ok values)) : tasks = values.map .ok := by
  cases h with
  | ok => rfl

/-- When all tasks succeed, the join returns their values. -/
theorem of_map_ok (h : TryJoinAll (values.map .ok) r) : r = .ok values := by
  have hno : ∀ {x : Outcome ε α}, x ∈ values.map Outcome.ok → ∃ a, x = .ok a := by
    intro x hx
    obtain ⟨a, -, rfl⟩ := List.mem_map.mp hx
    exact ⟨a, rfl⟩
  generalize hmap : values.map Outcome.ok = tasks at h hno
  cases h with
  | ok values' => rw [(List.map_inj_right fun _ _ => Outcome.ok.inj).mp hmap]
  | err h => obtain ⟨a, ha⟩ := hno h; cases ha
  | panic h => obtain ⟨a, ha⟩ := hno h; cases ha
  | hang h _ => obtain ⟨a, ha⟩ := hno h; cases ha

/-- A join of tasks that all succeed or never end does one of the two. -/
theorem ok_or_hang (h : TryJoinAll tasks r) (hall : ∀ t ∈ tasks, t = .hang ∨ ∃ a, t = .ok a) :
    (∃ values, tasks = values.map .ok ∧ r = .ok values) ∨ r = .hang ∧ .hang ∈ tasks := by
  cases h with
  | ok values => exact .inl ⟨values, rfl, rfl⟩
  | hang hmem _ => exact .inr ⟨rfl, hmem⟩
  | err hmem =>
      obtain hhang | ⟨a, ha⟩ := hall _ hmem
      · cases hhang
      · cases ha
  | panic hmem =>
      obtain hhang | ⟨a, ha⟩ := hall _ hmem
      · cases hhang
      · cases ha

end TryJoinAll

/-- The join when each task runs to its end before the next one does: the first failure in this order. -/
def tryJoinInOrder : List (Outcome ε α) → Outcome ε (List α)
  | [] => .ok []
  | .err e :: _ => .err e
  | .panic :: _ => .panic
  | .hang :: tasks => (tryJoinInOrder tasks).bind fun _ => .hang
  | .ok a :: tasks => (tryJoinInOrder tasks).bind fun as => .ok (a :: as)

namespace TryJoinAll

theorem inOrder : ∀ tasks : List (Outcome ε α), TryJoinAll tasks (tryJoinInOrder tasks)
  | [] => .ok []
  | .err e :: tasks => .err List.mem_cons_self
  | .panic :: tasks => .panic List.mem_cons_self
  | .hang :: tasks => by
      have h := inOrder tasks
      rw [tryJoinInOrder]
      generalize tryJoinInOrder tasks = r at h
      cases h with
      | ok values =>
          refine .hang List.mem_cons_self fun t ht => ?_
          obtain rfl | ht := List.mem_cons.mp ht
          · exact .inl rfl
          · obtain ⟨a, -, rfl⟩ := List.mem_map.mp ht
            exact .inr ⟨a, rfl⟩
      | err h => exact .err (List.mem_cons_of_mem _ h)
      | panic h => exact .panic (List.mem_cons_of_mem _ h)
      | hang h hall => exact .hang List.mem_cons_self (by simpa using hall)
  | .ok a :: tasks => by
      have h := inOrder tasks
      rw [tryJoinInOrder]
      generalize tryJoinInOrder tasks = r at h
      cases h with
      | ok values => exact .ok (a :: values)
      | err h => exact .err (List.mem_cons_of_mem _ h)
      | panic h => exact .panic (List.mem_cons_of_mem _ h)
      | hang h hall => exact .hang (List.mem_cons_of_mem _ h) (by simpa using hall)

theorem exists_outcome (tasks : List (Outcome ε α)) : ∃ r, TryJoinAll tasks r := ⟨_, inOrder tasks⟩

end TryJoinAll

/-! ### Joins that wait for every task -/

variable {β : Type w}

/-- Two tasks that are both waited for: a panic of either comes through at once, and one that never ends
keeps the error of the other back. -/
def Outcome.both (x : Outcome ε α) (y : Outcome ε β) : Outcome ε (α × β) :=
  match x, y with
  | .panic, _ => .panic
  | _, .panic => .panic
  | .hang, _ => .hang
  | _, .hang => .hang
  | .err e, _ => .err e
  | _, .err e => .err e
  | .ok a, .ok b => .ok (a, b)

theorem Outcome.both_eq_ok {x : Outcome ε α} {y : Outcome ε β} {a : α} {b : β} :
    x.both y = .ok (a, b) ↔ x = .ok a ∧ y = .ok b := by
  cases x <;> cases y <;> simp [both]

theorem Outcome.both_eq_panic {x : Outcome ε α} {y : Outcome ε β} : x.both y = .panic ↔ x = .panic ∨ y = .panic := by
  cases x <;> cases y <;> simp [both]

/-- Tasks that are all waited for. -/
def joinAll : List (Outcome ε α) → Outcome ε (List α)
  | [] => .ok []
  | task :: tasks => (task.both (joinAll tasks)).bind fun (a, as) => .ok (a :: as)

theorem joinAll_eq_ok : ∀ {tasks : List (Outcome ε α)} {values : List α}, joinAll tasks = .ok values →
    tasks = values.map .ok
  | [], values, h => by
      obtain rfl := Outcome.ok.inj h
      rfl
  | task :: tasks, values, h => by
      obtain ⟨⟨a, as⟩, hboth, hvalues⟩ := Outcome.bind_eq_ok.mp h
      obtain ⟨rfl, hrest⟩ := Outcome.both_eq_ok.mp hboth
      obtain rfl := Outcome.ok.inj hvalues
      rw [List.map_cons, joinAll_eq_ok hrest]

theorem joinAll_map_ok : ∀ values : List α, joinAll (values.map .ok : List (Outcome ε α)) = .ok values
  | [] => rfl
  | a :: values => by
      rw [List.map_cons, joinAll, joinAll_map_ok values]
      rfl

theorem joinAll_ne_panic : ∀ {tasks : List (Outcome ε α)}, (∀ t ∈ tasks, t ≠ .panic) → joinAll tasks ≠ .panic
  | [], _ => by simp [joinAll]
  | task :: tasks, h => by
      intro hpanic
      obtain hboth | ⟨_, -, hok⟩ := Outcome.bind_eq_panic.mp hpanic
      · obtain hp | hp := Outcome.both_eq_panic.mp hboth
        · exact h task List.mem_cons_self hp
        · exact joinAll_ne_panic (fun t ht => h t (List.mem_cons_of_mem _ ht)) hp
      · cases hok

import MpcCore.CircuitGraph

/-! # The waves of the scheduler

What a run of `processWave` does, on every graph.  Each index that enters a queue is followed as
an `Entry`: its round, the position of the pop that released it (`trigger`, zero for the indices
the run starts with) and its rank among the indices released by the same pop.  `D` are the
entries popped so far, `W` those waiting in `wave` and `X` those waiting in `nextWave`.

* `WaveInv` ties the queues, the in-degrees and the remaining operations to these entries, also
  in the middle of `releaseConsumers`, where the consumers `cs` have still to be visited.
* `releaseConsumers_spec`, `dispatch_spec`, `drainWave_spec` and `processWave_spec` say that each
  piece of the code keeps it, so no index is out of range, no `unwrap` meets `None`, no in-degree
  drops below zero and no loop runs out of rounds.
* `D ++ W ++ X` is always sorted by round, then trigger, then rank: the queues serve first what
  was released first. -/

namespace MpcCore

open Operation CircuitScheme EdgeList

/-- An index that entered a queue. -/
structure Entry where
  idx : ℕ
  round : ℕ
  trigger : ℕ
  rank : ℕ
deriving DecidableEq, Repr

/-- The order of service: by round, then by the pop that released the index, then by rank. -/
def Entry.Before (e f : Entry) : Prop :=
  e.round < f.round ∨ e.round = f.round ∧
    (e.trigger < f.trigger ∨ e.trigger = f.trigger ∧ e.rank < f.rank)

variable {S Op : Type} [Operation Op] [CircuitScheme S Op]

section setup

variable (scheme : S) (operations : List Op) (target : Bool)

/-- Is the operation at this index local? -/
def isLocalAt (i : ℕ) : Bool := (operations[i]?).any (isOperationLocal scheme)

/-- Is the operation at this index an input? -/
def isInputAt (i : ℕ) : Bool := (operations[i]?).any isInput

/-- Does the run hand this index over to the online wave instead of scheduling it? -/
def deferred (i : ℕ) : Bool := target && isInputAt operations i

/-- The popped entries that were scheduled. -/
def scheduled (D : List Entry) : List Entry := D.filter fun e => !deferred operations target e.idx

/-- The indices scheduled before the run (`T₀`) or by it. -/
def taken (T₀ : List ℕ) (D : List Entry) : List ℕ := (scheduled operations target D).map Entry.idx ++ T₀

/-- The edges into `c` from operations that are not scheduled. -/
def pending (E : List (ℕ × ℕ)) (T : List ℕ) (c : ℕ) : ℕ :=
  (preds E c).countP fun p => decide (p ∉ T)

/-- The scheduled entries of a round that are local (`true`) or use the network (`false`). -/
def roundEntries (D : List Entry) (r : ℕ) (isLocal : Bool) : List Entry :=
  (scheduled operations target D).filter fun e =>
    e.round == r && isLocalAt scheme operations e.idx == isLocal

/-- The operations of some entries. -/
def opsAt (D : List Entry) : List Op := D.filterMap fun e => operations[e.idx]?

/-- The round that the entries describe. -/
def roundAt (D : List Entry) (r : ℕ) : Round Op :=
  ⟨opsAt operations (roundEntries scheme operations target D r true),
    opsAt operations (roundEntries scheme operations target D r false)⟩

/-- How an entry came into the queues: it was there at the start, all its producers being
scheduled before the run, or the pop at position `k` released it, when the last of its other
producers had been popped. -/
def Origin (E : List (ℕ × ℕ)) (T₀ init : List ℕ) (D : List Entry) (e : Entry) : Prop :=
  (e.trigger = 0 ∧ e.round = 0 ∧ init[e.rank]? = some e.idx ∧ ∀ p, (p, e.idx) ∈ E → p ∈ T₀) ∨
  ∃ k t, e.trigger = k + 1 ∧ D[k]? = some t ∧ deferred operations target t.idx = false ∧
    (t.idx, e.idx) ∈ E ∧ e.rank = e.idx ∧
    e.round = t.round + (if isLocalAt scheme operations t.idx then 0 else 1) ∧
    ∀ p, (p, e.idx) ∈ E → p ∉ T₀ → ∃ j s, j ≤ k ∧ D[j]? = some s ∧ s.idx = p ∧
      deferred operations target p = false

end setup

/-- The state of a run in round `r`, with the consumers `cs` of the last pop still to visit. -/
structure WaveInv (scheme : S) (operations : List Op) (target : Bool) (E : List (ℕ × ℕ))
    (T₀ init : List ℕ) (r : ℕ) (D W X : List Entry) (cs : List ℕ) (st : Waves Op) : Prop where
  wave : st.wave = W.map Entry.idx
  nextWave : st.nextWave = X.map Entry.idx
  onlineWave : st.onlineWave = (D.map Entry.idx).filter (deferred operations target)
  localOperations : st.localOperations = (roundAt scheme operations target D r).localOperations
  networkOperations : st.networkOperations = (roundAt scheme operations target D r).networkOperations
  ops_length : st.ops.length = operations.length
  ops : ∀ i < operations.length, st.ops[i]? =
    some (if i ∈ taken operations target T₀ D then none else operations[i]?)
  inDegree : ∀ c < operations.length,
    st.inDegree[c]? = some (pending E (taken operations target T₀ D) c + cs.count c)
  lt : ∀ e ∈ D ++ W ++ X, e.idx < operations.length
  fresh : ∀ e ∈ D ++ W ++ X, e.idx ∉ T₀
  nodup : ((D ++ W ++ X).map Entry.idx).Nodup
  ready : ∀ e ∈ D ++ W ++ X, pending E (taken operations target T₀ D) e.idx + cs.count e.idx = 0
  complete : ∀ c < operations.length, c ∉ taken operations target T₀ D →
    pending E (taken operations target T₀ D) c + cs.count c = 0 → c ∈ (D ++ W ++ X).map Entry.idx
  round_done : ∀ e ∈ D, e.round ≤ r
  round_wave : ∀ e ∈ W, e.round = r
  round_next : ∀ e ∈ X, e.round = r + 1
  sorted : (D ++ W ++ X).Pairwise Entry.Before
  trigger_done : ∀ (j : ℕ) (e : Entry), D[j]? = some e → e.trigger ≤ j
  trigger_wait : ∀ e ∈ W ++ X, e.trigger ≤ D.length
  trigger_last : ∀ e ∈ W ++ X, e.trigger = D.length → ∀ c ∈ cs, e.idx ≤ c
  origin : ∀ e ∈ D ++ W ++ X, Origin scheme operations target E T₀ init D e

/-- The graph and the indices scheduled before a run: the consumers of an operation are its
successors in `E`, the earlier indices have all their producers among themselves. -/
structure WaveGraph (operations : List Op) (E : List (ℕ × ℕ)) (adj : List (List ℕ)) (T₀ : List ℕ) :
    Prop where
  adj : ∀ p < operations.length, adj[p]? = some (succs E p)
  edge_lt : ∀ p c, (p, c) ∈ E → p < operations.length ∧ c < operations.length
  sorted : E.Pairwise fun e f => e.2 ≤ f.2
  closed : ∀ p c, (p, c) ∈ E → c ∈ T₀ → p ∈ T₀

variable {scheme : S} {operations : List Op} {target : Bool} {E : List (ℕ × ℕ)}
  {adj : List (List ℕ)} {T₀ init : List ℕ} {r : ℕ} {D W X : List Entry} {st : Waves Op}

/-! ### Small facts -/

omit [Operation Op] in
theorem isLocalAt_of_getElem? (scheme : S) {i : ℕ} {op : Op} (h : operations[i]? = some op) :
    isLocalAt scheme operations i = isOperationLocal scheme op := by simp [isLocalAt, h]

theorem isInputAt_of_getElem? {i : ℕ} {op : Op} (h : operations[i]? = some op) :
    isInputAt operations i = isInput op := by simp [isInputAt, h]

theorem mem_scheduled {e : Entry} :
    e ∈ scheduled operations target D ↔ e ∈ D ∧ deferred operations target e.idx = false := by
  simp [scheduled]

theorem mem_taken {i : ℕ} :
    i ∈ taken operations target T₀ D ↔
      (∃ e ∈ D, deferred operations target e.idx = false ∧ e.idx = i) ∨ i ∈ T₀ := by
  simp only [taken, List.mem_append, List.mem_map, mem_scheduled]
  constructor
  · rintro (⟨e, ⟨h1, h2⟩, rfl⟩ | h)
    · exact .inl ⟨e, h1, h2, rfl⟩
    · exact .inr h
  · rintro (⟨e, h1, h2, rfl⟩ | h)
    · exact .inl ⟨e, ⟨h1, h2⟩, rfl⟩
    · exact .inr h

theorem pending_eq_zero {T : List ℕ} {c : ℕ} : pending E T c = 0 ↔ ∀ p, (p, c) ∈ E → p ∈ T := by
  simp only [pending, List.countP_eq_zero, decide_eq_true_eq, not_not, mem_preds]

theorem pending_congr {T T' : List ℕ} (h : ∀ p, p ∈ T ↔ p ∈ T') (c : ℕ) :
    pending E T c = pending E T' c :=
  List.countP_congr fun p _ => by simp [h p]

/-- Scheduling `i` takes the edges from `i` off what its consumers wait for. -/
theorem pending_schedule {T : List ℕ} {i : ℕ} (hi : i ∉ T) (c : ℕ) :
    pending E T c = pending E (i :: T) c + (succs E i).count c := by
  rw [count_succs]
  exact countP_preds_cons hi _

theorem Origin.mono {e x : Entry} (h : Origin scheme operations target E T₀ init D e) :
    Origin scheme operations target E T₀ init (D ++ [x]) e := by
  have hget : ∀ (k : ℕ) (t : Entry), D[k]? = some t → (D ++ [x])[k]? = some t := by
    intro k t ht
    rw [List.getElem?_append_left (List.getElem?_eq_some_iff.mp ht).1]
    exact ht
  obtain h | ⟨k, t, h1, h2, h3, h4, h5, h6, h7⟩ := h
  · exact .inl h
  · refine .inr ⟨k, t, h1, hget k t h2, h3, h4, h5, h6, fun p hp hT => ?_⟩
    obtain ⟨j, s, hj, hs, hsp⟩ := h7 p hp hT
    exact ⟨j, s, hj, hget j s hs, hsp⟩

theorem WaveInv.trigger_lt {cs : List ℕ}
    (h : WaveInv scheme operations target E T₀ init r D W X cs st) {e : Entry} (he : e ∈ D) :
    e.trigger < D.length := by
  obtain ⟨j, hj⟩ := List.getElem?_of_mem he
  exact lt_of_le_of_lt (h.trigger_done j e hj) (List.getElem?_eq_some_iff.mp hj).1

theorem WaveInv.not_taken {cs : List ℕ} (h : WaveInv scheme operations target E T₀ init r D W X cs st) {e : Entry}
    (he : e ∈ W ++ X) : e.idx ∉ taken operations target T₀ D := by
  have hnd := h.nodup
  rw [List.append_assoc, List.map_append, List.nodup_append] at hnd
  rw [mem_taken]
  rintro (⟨x, hx, -, hxe⟩ | hT)
  · exact hnd.2.2 _ (List.mem_map_of_mem hx) e.idx (List.mem_map_of_mem he) hxe
  · exact h.fresh e (by rw [List.append_assoc]; exact List.mem_append_right _ he) hT

/-! ### Releasing consumers -/

section release

variable {c : ℕ} {cs : List ℕ}

theorem WaveInv.not_waiting (h : WaveInv scheme operations target E T₀ init r D W X (c :: cs) st) :
    c ∉ (D ++ W ++ X).map Entry.idx := by
  intro hc
  obtain ⟨e, he, rfl⟩ := List.mem_map.mp hc
  have := h.ready e he
  simp at this

theorem WaveInv.inDegree_head (h : WaveInv scheme operations target E T₀ init r D W X (c :: cs) st)
    (hc : c < operations.length) :
    st.inDegree[c]? = some (pending E (taken operations target T₀ D) c + cs.count c + 1) := by
  rw [h.inDegree c hc, List.count_cons_self]
  rfl

theorem WaveInv.inDegree_set (h : WaveInv scheme operations target E T₀ init r D W X (c :: cs) st)
    (hc : c < operations.length) : ∀ x < operations.length,
    (st.inDegree.set c (pending E (taken operations target T₀ D) c + cs.count c))[x]? =
      some (pending E (taken operations target T₀ D) x + cs.count x) := by
  intro x hx
  have hlen := (List.getElem?_eq_some_iff.mp (h.inDegree_head hc)).1
  rw [List.getElem?_set]
  by_cases hcx : c = x
  · subst hcx
    simp [hlen]
  · rw [if_neg hcx, h.inDegree x hx, List.count_cons_of_ne hcx]

theorem WaveInv.ready_tail (h : WaveInv scheme operations target E T₀ init r D W X (c :: cs) st) :
    ∀ e ∈ D ++ W ++ X, pending E (taken operations target T₀ D) e.idx + cs.count e.idx = 0 := by
  intro e he
  have h1 := h.ready e he
  have h2 : cs.count e.idx ≤ (c :: cs).count e.idx := List.count_le_count_cons ..
  omega

theorem WaveInv.complete_tail (h : WaveInv scheme operations target E T₀ init r D W X (c :: cs) st)
    {x : ℕ} (hx : x < operations.length) (hT : x ∉ taken operations target T₀ D) (hcx : c ≠ x)
    (h0 : pending E (taken operations target T₀ D) x + cs.count x = 0) :
    x ∈ (D ++ W ++ X).map Entry.idx := by
  apply h.complete x hx hT
  rw [List.count_cons_of_ne hcx]
  exact h0

/-- A visit that leaves `c` waiting for others. -/
theorem WaveInv.release_skip (h : WaveInv scheme operations target E T₀ init r D W X (c :: cs) st)
    (hc : c < operations.length)
    (hd : pending E (taken operations target T₀ D) c + cs.count c ≠ 0) :
    WaveInv scheme operations target E T₀ init r D W X cs { st with
      inDegree := st.inDegree.set c (pending E (taken operations target T₀ D) c + cs.count c) } where
  wave := h.wave
  nextWave := h.nextWave
  onlineWave := h.onlineWave
  localOperations := h.localOperations
  networkOperations := h.networkOperations
  ops_length := h.ops_length
  ops := h.ops
  inDegree := h.inDegree_set hc
  lt := h.lt
  fresh := h.fresh
  nodup := h.nodup
  ready := h.ready_tail
  complete _ hx hT h0 := h.complete_tail hx hT (fun hcx => hd (hcx ▸ h0)) h0
  round_done := h.round_done
  round_wave := h.round_wave
  round_next := h.round_next
  sorted := h.sorted
  trigger_done := h.trigger_done
  trigger_wait := h.trigger_wait
  trigger_last e he ht x hx := h.trigger_last e he ht x (List.mem_cons_of_mem _ hx)
  origin := h.origin

/-- The entry that the pop of `e₀` creates for `c`. -/
def releasedEntry (scheme : S) (operations : List Op) (r : ℕ) (D : List Entry) (e₀ : Entry) (c : ℕ) :
    Entry :=
  ⟨c, r + (if isLocalAt scheme operations e₀.idx then 0 else 1), D.length, c⟩

/-- An entry released by the last pop has the last trigger, and its rank is its index. -/
theorem Origin.rank_of_trigger {e : Entry} (h : Origin scheme operations target E T₀ init D e)
    (hD : D ≠ []) (ht : e.trigger = D.length) : e.rank = e.idx := by
  obtain ⟨h0, -⟩ | ⟨k, t, -, -, -, -, h5, -⟩ := h
  · have := List.length_pos_iff.mpr hD
    omega
  · exact h5

section push

variable {D₀ : List Entry} {e₀ : Entry}

/-- The facts about the entry of a consumer whose last producer was just popped. -/
theorem WaveInv.released_before
    (h : WaveInv scheme operations target E T₀ init r (D₀ ++ [e₀]) W X (c :: cs) st) :
    (∀ x ∈ D₀ ++ [e₀], x.Before (releasedEntry scheme operations r (D₀ ++ [e₀]) e₀ c)) ∧
    (∀ x ∈ W ++ X, x.round ≤ (releasedEntry scheme operations r (D₀ ++ [e₀]) e₀ c).round →
      x.Before (releasedEntry scheme operations r (D₀ ++ [e₀]) e₀ c)) := by
  constructor
  · intro x hx
    have h1 := h.round_done x hx
    have h2 := h.trigger_lt hx
    simp only [Entry.Before, releasedEntry]
    split_ifs <;> omega
  · intro x hx hround
    have hmem : x ∈ D₀ ++ [e₀] ++ W ++ X := by
      rw [List.append_assoc]
      exact List.mem_append_right _ hx
    have h1 := h.trigger_wait x hx
    have h2 := h.trigger_last x hx
    have hrank := (h.origin x hmem).rank_of_trigger (by simp)
    have hne : x.idx ≠ c := by
      rintro rfl
      exact h.not_waiting (List.mem_map_of_mem hmem)
    unfold Entry.Before
    obtain hlt | hge := Nat.lt_or_ge x.round (releasedEntry scheme operations r (D₀ ++ [e₀]) e₀ c).round
    · exact .inl hlt
    · refine .inr ⟨by omega, ?_⟩
      simp only [releasedEntry]
      obtain hlt | hge := Nat.lt_or_ge x.trigger (D₀ ++ [e₀]).length
      · exact .inl hlt
      · have heq : x.trigger = (D₀ ++ [e₀]).length := by omega
        have := h2 heq c (by simp)
        rw [hrank heq]
        exact .inr ⟨heq, by omega⟩

theorem origin_releasedEntry
    (hdef : deferred operations target e₀.idx = false) (hround : e₀.round = r)
    (hedge : (e₀.idx, c) ∈ E)
    (hd : pending E (taken operations target T₀ (D₀ ++ [e₀])) c + cs.count c = 0) :
    Origin scheme operations target E T₀ init (D₀ ++ [e₀])
      (releasedEntry scheme operations r (D₀ ++ [e₀]) e₀ c) := by
  refine .inr ⟨D₀.length, e₀, by simp [releasedEntry], by simp, hdef, hedge, rfl, by
    simp [releasedEntry, hround], fun p hp hT => ?_⟩
  have hpend : pending E (taken operations target T₀ (D₀ ++ [e₀])) c = 0 := by omega
  obtain ⟨s, hs, hsd, rfl⟩ | hT' := mem_taken.mp (pending_eq_zero.mp hpend p hp)
  · obtain ⟨j, hj⟩ := List.getElem?_of_mem hs
    have := (List.getElem?_eq_some_iff.mp hj).1
    simp only [List.length_append, List.length_cons, List.length_nil] at this
    exact ⟨j, s, by omega, hj, rfl, hsd⟩
  · exact absurd hT' hT

theorem WaveInv.sorted_push
    (h : WaveInv scheme operations target E T₀ init r (D₀ ++ [e₀]) W X (c :: cs) st) {f : Entry}
    (hf : f = releasedEntry scheme operations r (D₀ ++ [e₀]) e₀ c) :
    (D₀ ++ [e₀] ++ (W ++ if isLocalAt scheme operations e₀.idx then [f] else []) ++
      (X ++ if isLocalAt scheme operations e₀.idx then [] else [f])).Pairwise Entry.Before := by
  obtain ⟨hDb, hWb⟩ := h.released_before
  rw [← hf] at hDb hWb
  have hs := h.sorted
  cases hl : isLocalAt scheme operations e₀.idx
  · simp only [Bool.false_eq_true, if_false, List.append_nil]
    rw [← List.append_assoc]
    refine List.pairwise_append.mpr ⟨hs, by simp, fun x hx y hy => ?_⟩
    obtain rfl : y = f := by simpa using hy
    obtain hx | hx := List.mem_append.mp (List.append_assoc (D₀ ++ [e₀]) W X ▸ hx)
    · exact hDb x hx
    · apply hWb x hx
      simp only [hf, releasedEntry, hl]
      obtain hx | hx := List.mem_append.mp hx
      · rw [h.round_wave x hx]; simp
      · rw [h.round_next x hx]; simp
  · simp only [if_true, List.append_nil]
    rw [← List.append_assoc]
    obtain ⟨h1, h2, h3⟩ := List.pairwise_append.mp hs
    refine List.pairwise_append.mpr ⟨List.pairwise_append.mpr ⟨h1, by simp, ?_⟩, h2, ?_⟩
    · intro x hx y hy
      obtain rfl : y = f := by simpa using hy
      obtain hx | hx := List.mem_append.mp hx
      · exact hDb x hx
      · apply hWb x (List.mem_append_left _ hx)
        simp only [hf, releasedEntry, hl]
        rw [h.round_wave x hx]; simp
    · intro x hx y hy
      obtain hx | hx := List.mem_append.mp hx
      · exact h3 x hx y hy
      · obtain rfl : x = f := by simpa using hx
        apply Or.inl
        rw [h.round_next y hy]
        simp [hf, releasedEntry, hl]

omit [Operation Op] in
theorem perm_push (D W X : List Entry) (f : Entry) (b : Bool) :
    (D ++ (W ++ if b then [f] else []) ++ (X ++ if b then [] else [f])).Perm (D ++ W ++ X ++ [f]) := by
  cases b
  · simp
  · simp only [if_true, List.append_nil, List.append_assoc]
    exact List.Perm.append_left _ (List.Perm.append_left _ List.perm_append_comm)

theorem WaveInv.round_push (h : WaveInv scheme operations target E T₀ init r (D₀ ++ [e₀]) W X (c :: cs) st)
    {f : Entry} (hf : f = releasedEntry scheme operations r (D₀ ++ [e₀]) e₀ c) :
    (∀ x ∈ W ++ (if isLocalAt scheme operations e₀.idx then [f] else []), x.round = r) ∧
    ∀ x ∈ X ++ (if isLocalAt scheme operations e₀.idx then [] else [f]), x.round = r + 1 := by
  constructor
  · intro x hx
    obtain hx | hx := List.mem_append.mp hx
    · exact h.round_wave x hx
    · cases hl : isLocalAt scheme operations e₀.idx <;> simp [hl] at hx
      simp [hx, hf, releasedEntry, hl]
  · intro x hx
    obtain hx | hx := List.mem_append.mp hx
    · exact h.round_next x hx
    · cases hl : isLocalAt scheme operations e₀.idx <;> simp [hl] at hx
      simp [hx, hf, releasedEntry, hl]

/-- A visit that takes the last pending edge of `c`: `c` joins the wave of its releaser. -/
theorem WaveInv.release_push (hg : WaveGraph operations E adj T₀)
    (h : WaveInv scheme operations target E T₀ init r (D₀ ++ [e₀]) W X (c :: cs) st)
    (hsorted : (c :: cs).Pairwise (· ≤ ·))
    (hdef : deferred operations target e₀.idx = false) (hround : e₀.round = r)
    (hedge : (e₀.idx, c) ∈ E)
    (hd : pending E (taken operations target T₀ (D₀ ++ [e₀])) c + cs.count c = 0)
    {W' X' : List Entry} {st' : Waves Op}
    (hW' : W' = W ++ if isLocalAt scheme operations e₀.idx then
      [releasedEntry scheme operations r (D₀ ++ [e₀]) e₀ c] else [])
    (hX' : X' = X ++ if isLocalAt scheme operations e₀.idx then [] else
      [releasedEntry scheme operations r (D₀ ++ [e₀]) e₀ c])
    (hst' : st' = { st with
      inDegree := st.inDegree.set c (pending E (taken operations target T₀ (D₀ ++ [e₀])) c + cs.count c)
      wave := W'.map Entry.idx
      nextWave := X'.map Entry.idx }) :
    WaveInv scheme operations target E T₀ init r (D₀ ++ [e₀]) W' X' cs st' := by
  have horig : Origin scheme operations target E T₀ init (D₀ ++ [e₀])
      (releasedEntry scheme operations r (D₀ ++ [e₀]) e₀ c) :=
    origin_releasedEntry hdef hround hedge hd
  set f := releasedEntry scheme operations r (D₀ ++ [e₀]) e₀ c with hf
  have hc : c < operations.length := (hg.edge_lt _ _ hedge).2
  have he₀ : e₀ ∈ D₀ ++ [e₀] ++ W ++ X := by simp
  have hfresh : c ∉ T₀ := fun hT => h.fresh e₀ he₀ (hg.closed _ _ hedge hT)
  have hperm : (D₀ ++ [e₀] ++ W' ++ X').Perm (D₀ ++ [e₀] ++ W ++ X ++ [f]) := by
    subst hW' hX'
    exact perm_push _ W X f _
  have hall : ∀ x, x ∈ D₀ ++ [e₀] ++ W' ++ X' ↔ x ∈ D₀ ++ [e₀] ++ W ++ X ∨ x = f := by
    intro x
    rw [hperm.mem_iff, List.mem_append, List.mem_singleton]
  have hwait : ∀ x, x ∈ W' ++ X' → x ∈ W ++ X ∨ x = f := by
    intro x hx
    subst hW' hX'
    exact List.mem_append.mp ((perm_push [] W X f _).mem_iff.mp hx) |>.imp_right List.mem_singleton.mp
  obtain ⟨hrw, hrx⟩ := h.round_push hf
  subst hst'
  exact
    { wave := rfl
      nextWave := rfl
      onlineWave := h.onlineWave
      localOperations := h.localOperations
      networkOperations := h.networkOperations
      ops_length := h.ops_length
      ops := h.ops
      inDegree := h.inDegree_set hc
      lt := by
        intro x hx
        obtain hx | rfl := (hall x).mp hx
        · exact h.lt x hx
        · exact hc
      fresh := by
        intro x hx
        obtain hx | rfl := (hall x).mp hx
        · exact h.fresh x hx
        · exact hfresh
      nodup := by
        rw [(hperm.map Entry.idx).nodup_iff, List.map_append]
        apply List.Nodup.append h.nodup (by simp)
        intro i hi hi'
        have : i = c := by simpa [hf, releasedEntry] using hi'
        exact h.not_waiting (this ▸ hi)
      ready := by
        intro x hx
        obtain hx | rfl := (hall x).mp hx
        · exact h.ready_tail x hx
        · exact hd
      complete := by
        intro x hx hT h0
        rw [(hperm.map Entry.idx).mem_iff, List.map_append, List.mem_append]
        by_cases hcx : c = x
        · exact .inr (by simp [hf, releasedEntry, hcx])
        · exact .inl (h.complete_tail hx hT hcx h0)
      round_done := h.round_done
      round_wave := hW' ▸ hrw
      round_next := hX' ▸ hrx
      sorted := by
        subst hW' hX'
        exact h.sorted_push hf
      trigger_done := h.trigger_done
      trigger_wait := by
        intro x hx
        obtain hx | rfl := hwait x hx
        · exact h.trigger_wait x hx
        · exact le_rfl
      trigger_last := by
        intro x hx ht y hy
        obtain hx | rfl := hwait x hx
        · exact h.trigger_last x hx ht y (List.mem_cons_of_mem _ hy)
        · exact (List.pairwise_cons.mp hsorted).1 y hy
      origin := by
        intro x hx
        obtain hx | rfl := (hall x).mp hx
        · exact h.origin x hx
        · exact horig }

/-- The loop over the consumers of the popped operation. -/
theorem releaseConsumers_spec (hg : WaveGraph operations E adj T₀)
    (hdef : deferred operations target e₀.idx = false) (hround : e₀.round = r) :
    ∀ (cs : List ℕ) (W X : List Entry) (st : Waves Op),
      WaveInv scheme operations target E T₀ init r (D₀ ++ [e₀]) W X cs st →
      cs.Pairwise (· ≤ ·) → (∀ c ∈ cs, (e₀.idx, c) ∈ E) →
      ∃ st' W' X', releaseConsumers (isLocalAt scheme operations e₀.idx) cs st = .ok st' ∧
        W <+: W' ∧ WaveInv scheme operations target E T₀ init r (D₀ ++ [e₀]) W' X' [] st'
  | [], W, X, st, h, _, _ => ⟨st, W, X, rfl, List.prefix_rfl, h⟩
  | c :: cs, W, X, st, h, hs, he => by
      have hedge := he c (by simp)
      have hc : c < operations.length := (hg.edge_lt _ _ hedge).2
      have hdeg := h.inDegree_head hc
      have hs' := (List.pairwise_cons.mp hs).2
      have he' : ∀ c ∈ cs, (e₀.idx, c) ∈ E := fun x hx => he x (List.mem_cons_of_mem _ hx)
      by_cases hd : pending E (taken operations target T₀ (D₀ ++ [e₀])) c + cs.count c = 0
      · have hpush := h.release_push hg hs hdef hround hedge hd rfl rfl rfl
        obtain ⟨st', W', X', h1, h2, h3⟩ := releaseConsumers_spec hg hdef hround cs _ _ _ hpush hs' he'
        refine ⟨st', W', X', ?_, (List.prefix_append _ _).trans h2, h3⟩
        rw [← h1]
        simp only [releaseConsumers, hdeg, hd, if_true]
        cases isLocalAt scheme operations e₀.idx <;> simp [h.wave, h.nextWave, releasedEntry]
      · obtain ⟨st', W', X', h1, h2, h3⟩ :=
          releaseConsumers_spec hg hdef hround cs W X _ (h.release_skip hc hd) hs' he'
        refine ⟨st', W', X', ?_, h2, h3⟩
        rw [← h1]
        simp only [releaseConsumers, hdeg, hd, if_false]

end push

end release

/-! ### One pop -/

section pop

variable {e : Entry}

theorem WaveInv.popped_op (h : WaveInv scheme operations target E T₀ init r D (e :: W) X [] st) :
    ∃ op, operations[e.idx]? = some op ∧ st.ops[e.idx]? = some (some op) := by
  have hlt := h.lt e (by simp)
  refine ⟨operations[e.idx], List.getElem?_eq_getElem hlt, ?_⟩
  rw [h.ops e.idx hlt, if_neg (h.not_taken (by simp)), List.getElem?_eq_getElem hlt]

theorem scheduled_snoc : scheduled operations target (D ++ [e]) =
    scheduled operations target D ++ if deferred operations target e.idx then [] else [e] := by
  simp only [scheduled, List.filter_append]
  cases hd : deferred operations target e.idx <;> simp [hd]

theorem mem_taken_snoc {i : ℕ} : i ∈ taken operations target T₀ (D ++ [e]) ↔
    i ∈ taken operations target T₀ D ∨ deferred operations target e.idx = false ∧ e.idx = i := by
  simp only [taken, scheduled_snoc, List.map_append, List.mem_append]
  cases hd : deferred operations target e.idx
  · simp only [Bool.false_eq_true, if_false, List.map_cons, List.map_nil, List.mem_singleton, true_and,
      @eq_comm _ i]
    exact or_right_comm
  · simp

theorem roundEntries_snoc {q : ℕ} {b : Bool} :
    roundEntries scheme operations target (D ++ [e]) q b = roundEntries scheme operations target D q b ++
      if deferred operations target e.idx = false ∧ e.round = q ∧ isLocalAt scheme operations e.idx = b
      then [e] else [] := by
  simp only [roundEntries, scheduled_snoc, List.filter_append]
  congr 1
  cases hd : deferred operations target e.idx
  · by_cases hq : e.round = q <;> by_cases hb : isLocalAt scheme operations e.idx = b <;> simp [hq, hb]
  · simp

theorem WaveInv.pop_entries (h : WaveInv scheme operations target E T₀ init r D (e :: W) X [] st) :
    D ++ e :: W ++ X = D ++ [e] ++ W ++ X ∧ (∀ x ∈ D ++ [e], x.round ≤ r) ∧
    (∀ (j : ℕ) (x : Entry), (D ++ [e])[j]? = some x → x.trigger ≤ j) ∧
    (∀ x ∈ W ++ X, x.trigger < (D ++ [e]).length) ∧
    ∀ x ∈ D ++ e :: W ++ X, Origin scheme operations target E T₀ init (D ++ [e]) x := by
  refine ⟨by simp, ?_, ?_, ?_, fun x hx => (h.origin x hx).mono⟩
  · intro x hx
    obtain hx | hx := List.mem_append.mp hx
    · exact h.round_done x hx
    · obtain rfl : x = e := by simpa using hx
      exact (h.round_wave x (by simp)).le
  · intro j x hx
    obtain hlt | hge := Nat.lt_or_ge j D.length
    · rw [List.getElem?_append_left hlt] at hx
      exact h.trigger_done j x hx
    · rw [List.getElem?_append_right hge] at hx
      obtain rfl : x = e := by simpa using List.mem_of_getElem? hx
      exact (h.trigger_wait x (by simp)).trans hge
  · intro x hx
    have := h.trigger_wait x (by simpa using List.mem_cons_of_mem e hx)
    simp only [List.length_append, List.length_cons, List.length_nil]
    omega

/-- Popping an input in the offline run: it moves to the online wave. -/
theorem WaveInv.defer (h : WaveInv scheme operations target E T₀ init r D (e :: W) X [] st)
    (hdef : deferred operations target e.idx = true) :
    WaveInv scheme operations target E T₀ init r (D ++ [e]) W X []
      { st with wave := W.map Entry.idx, onlineWave := st.onlineWave ++ [e.idx] } := by
  obtain ⟨hall, hround, htd, htw, horig⟩ := h.pop_entries
  have htaken : ∀ i, i ∈ taken operations target T₀ (D ++ [e]) ↔ i ∈ taken operations target T₀ D := by
    intro i
    rw [mem_taken_snoc, hdef]
    simp
  have hpend := @pending_congr E _ _ htaken
  have hat : ∀ q b, roundEntries scheme operations target (D ++ [e]) q b =
      roundEntries scheme operations target D q b := by
    intro q b
    rw [roundEntries_snoc, hdef]
    simp
  exact
    { wave := rfl
      nextWave := h.nextWave
      onlineWave := by rw [h.onlineWave, List.map_append, List.filter_append]; simp [hdef]
      localOperations := by simp only [roundAt, hat]; exact h.localOperations
      networkOperations := by simp only [roundAt, hat]; exact h.networkOperations
      ops_length := h.ops_length
      ops := by intro i hi; rw [h.ops i hi]; simp only [htaken]
      inDegree := by intro c hc; rw [h.inDegree c hc, hpend]
      lt := hall ▸ h.lt
      fresh := hall ▸ h.fresh
      nodup := hall ▸ h.nodup
      ready := by intro x hx; rw [hpend]; exact h.ready x (hall ▸ hx)
      complete := by
        intro c hc hT h0
        rw [htaken] at hT
        rw [hpend] at h0
        exact hall ▸ h.complete c hc hT h0
      round_done := hround
      round_wave := fun x hx => h.round_wave x (List.mem_cons_of_mem _ hx)
      round_next := h.round_next
      sorted := hall ▸ h.sorted
      trigger_done := htd
      trigger_wait := fun x hx => (htw x hx).le
      trigger_last := fun x hx ht => absurd ht (htw x hx).ne
      origin := hall ▸ horig }

theorem mem_taken_pop (hdef : deferred operations target e.idx = false) (i : ℕ) :
    i ∈ taken operations target T₀ (D ++ [e]) ↔ i ∈ e.idx :: taken operations target T₀ D := by
  rw [mem_taken_snoc, List.mem_cons]
  constructor
  · rintro (hi | ⟨-, rfl⟩)
    · exact .inr hi
    · exact .inl rfl
  · rintro (rfl | hi)
    · exact .inr ⟨hdef, rfl⟩
    · exact .inl hi

/-- The edges that its consumers were waiting for are now those to visit. -/
theorem WaveInv.pending_pop (h : WaveInv scheme operations target E T₀ init r D (e :: W) X [] st)
    (hdef : deferred operations target e.idx = false) (c : ℕ) :
    pending E (taken operations target T₀ D) c + ([] : List ℕ).count c =
      pending E (taken operations target T₀ (D ++ [e])) c + (succs E e.idx).count c := by
  rw [pending_congr (mem_taken_pop hdef), ← pending_schedule (h.not_taken (by simp))]
  rfl

theorem WaveInv.opsAt_pop (h : WaveInv scheme operations target E T₀ init r D (e :: W) X [] st) {op : Op}
    (hop : operations[e.idx]? = some op) (hdef : deferred operations target e.idx = false) (b : Bool) :
    opsAt operations (roundEntries scheme operations target (D ++ [e]) r b) =
      opsAt operations (roundEntries scheme operations target D r b) ++
        if isOperationLocal scheme op = b then [op] else [] := by
  rw [roundEntries_snoc, opsAt, List.filterMap_append, opsAt, hdef, h.round_wave e (by simp),
    isLocalAt_of_getElem? scheme hop]
  by_cases hb : isOperationLocal scheme op = b <;> simp [hb, hop]

theorem WaveInv.ops_pop (h : WaveInv scheme operations target E T₀ init r D (e :: W) X [] st)
    (hdef : deferred operations target e.idx = false) {i : ℕ} (hi : i < operations.length) :
    (st.ops.set e.idx none)[i]? =
      some (if i ∈ taken operations target T₀ (D ++ [e]) then none else operations[i]?) := by
  have hlt := h.lt e (by simp)
  rw [List.getElem?_set]
  by_cases hei : e.idx = i
  · subst hei
    simp [mem_taken_pop hdef, h.ops_length, hlt]
  · rw [if_neg hei, h.ops i hi]
    simp only [mem_taken_pop hdef, List.mem_cons, Ne.symm hei, false_or]

/-- Popping an operation that the run schedules, before its consumers are visited. -/
theorem WaveInv.take (h : WaveInv scheme operations target E T₀ init r D (e :: W) X [] st) {op : Op}
    (hop : operations[e.idx]? = some op) (hdef : deferred operations target e.idx = false) :
    WaveInv scheme operations target E T₀ init r (D ++ [e]) W X (succs E e.idx)
      (if isOperationLocal scheme op then
        { st with wave := W.map Entry.idx, ops := st.ops.set e.idx none
                  localOperations := st.localOperations ++ [op] }
       else
        { st with wave := W.map Entry.idx, ops := st.ops.set e.idx none
                  networkOperations := st.networkOperations ++ [op] }) := by
  obtain ⟨hall, hround, htd, htw, horig⟩ := h.pop_entries
  have hpend := h.pending_pop hdef
  have hops := h.opsAt_pop hop hdef
  have hl := h.localOperations
  have hn := h.networkOperations
  simp only [roundAt] at hl hn
  constructor
  case wave => split_ifs <;> rfl
  case nextWave => split_ifs <;> exact h.nextWave
  case onlineWave =>
    rw [List.map_append, List.filter_append, ← h.onlineWave]
    split_ifs <;> simp [hdef]
  case localOperations =>
    simp only [roundAt, hops, ← hl]
    split_ifs <;> simp_all
  case networkOperations =>
    simp only [roundAt, hops, ← hn]
    split_ifs <;> simp_all
  case ops_length => split_ifs <;> simp [h.ops_length]
  case ops =>
    intro i hi
    rw [← h.ops_pop hdef hi]
    split_ifs <;> rfl
  case inDegree =>
    intro c hc
    rw [← hpend]
    split_ifs <;> exact h.inDegree c hc
  case lt => exact hall ▸ h.lt
  case fresh => exact hall ▸ h.fresh
  case nodup => exact hall ▸ h.nodup
  case ready => intro x hx; rw [← hpend]; exact h.ready x (hall ▸ hx)
  case complete =>
    intro c hc hT h0
    rw [← hpend] at h0
    exact hall ▸ h.complete c hc
      (fun hcT => hT ((mem_taken_pop hdef c).mpr (List.mem_cons_of_mem _ hcT))) h0
  case round_done => exact hround
  case round_wave => exact fun x hx => h.round_wave x (List.mem_cons_of_mem _ hx)
  case round_next => exact h.round_next
  case sorted => exact hall ▸ h.sorted
  case trigger_done => exact htd
  case trigger_wait => exact fun x hx => (htw x hx).le
  case trigger_last => exact fun x hx ht => absurd ht (htw x hx).ne
  case origin => exact hall ▸ horig

/-- The body of the inner loop. -/
theorem dispatch_spec (hg : WaveGraph operations E adj T₀)
    (h : WaveInv scheme operations target E T₀ init r D (e :: W) X [] st) :
    ∃ st' W' X', dispatch scheme adj target e.idx { st with wave := W.map Entry.idx } = .ok st' ∧
      W <+: W' ∧ WaveInv scheme operations target E T₀ init r (D ++ [e]) W' X' [] st' := by
  obtain ⟨op, hop, hst⟩ := h.popped_op
  have hinp : deferred operations target e.idx = (target && isInput op) := by
    simp [deferred, isInputAt_of_getElem? hop]
  cases hdef : deferred operations target e.idx with
  | true =>
      refine ⟨_, W, X, ?_, List.prefix_rfl, h.defer hdef⟩
      simp [dispatch, hst, ← hinp, hdef]
  | false =>
      have htake := h.take hop hdef
      have hedge : ∀ c ∈ succs E e.idx, (e.idx, c) ∈ E := fun c hc => mem_succs.mp hc
      obtain ⟨st', W', X', h1, h2, h3⟩ := releaseConsumers_spec hg hdef (h.round_wave e (by simp))
        (succs E e.idx) W X _ htake (succs_sorted hg.sorted _) hedge
      refine ⟨st', W', X', ?_, h2, h3⟩
      rw [← h1]
      simp [dispatch, hst, ← hinp, hdef, hg.adj e.idx (h.lt e (by simp)), isLocalAt_of_getElem? scheme hop]

end pop

/-! ### The loops -/

/-- No index enters the queues twice, so no more entries exist than operations. -/
theorem WaveInv.length_le {cs : List ℕ}
    (h : WaveInv scheme operations target E T₀ init r D W X cs st) :
    (D ++ W ++ X).length ≤ operations.length := by
  have hsub : ((D ++ W ++ X).map Entry.idx).toFinset ⊆ Finset.range operations.length := by
    intro i hi
    obtain ⟨e, he, rfl⟩ := List.mem_map.mp (List.mem_toFinset.mp hi)
    exact Finset.mem_range.mpr (h.lt e he)
  have := Finset.card_le_card hsub
  rwa [List.toFinset_card_of_nodup h.nodup, List.length_map, Finset.card_range] at this

/-- The inner loop: it pops the whole wave and everything its local operations add to it. -/
theorem drainWave_spec (hg : WaveGraph operations E adj T₀) :
    ∀ (fuel : ℕ) (D W X : List Entry) (st : Waves Op),
      WaveInv scheme operations target E T₀ init r D W X [] st →
      operations.length < fuel + D.length →
      ∃ st' N X', drainWave scheme adj target fuel st = .ok st' ∧
        (∀ e ∈ W ++ N, e.round = r) ∧
        WaveInv scheme operations target E T₀ init r (D ++ W ++ N) [] X' [] st'
  | 0, D, W, X, st, h, hf => by
      have := h.length_le
      simp only [List.length_append] at this
      omega
  | fuel + 1, D, [], X, st, h, _ => by
      refine ⟨st, [], X, ?_, by simp, by simpa using h⟩
      simp [drainWave, h.wave]
  | fuel + 1, D, e :: W, X, st, h, hf => by
      obtain ⟨st₁, W₁, X₁, h1, ⟨N, rfl⟩, h2⟩ := dispatch_spec hg h
      obtain ⟨st', M, X', h3, h4, h5⟩ := drainWave_spec hg fuel (D ++ [e]) (W ++ N) X₁ st₁ h2 (by
        simp only [List.length_append, List.length_cons, List.length_nil]
        omega)
      refine ⟨st', N ++ M, X', ?_, ?_, by simpa using h5⟩
      · simp only [drainWave, h.wave, List.map_cons, h1, Outcome.ok_bind]
        exact h3
      · intro x hx
        rw [List.cons_append] at hx
        obtain rfl | hx := List.mem_cons.mp hx
        · exact h.round_wave _ (by simp)
        · exact h4 x (by simpa using hx)

theorem roundEntries_append {D N : List Entry} {q : ℕ} {b : Bool} (hN : ∀ e ∈ N, e.round ≠ q) :
    roundEntries scheme operations target (D ++ N) q b = roundEntries scheme operations target D q b := by
  have hnil : roundEntries scheme operations target N q b = [] := by
    refine List.filter_eq_nil_iff.mpr fun e he => ?_
    have := hN e (List.mem_filter.mp he).1
    simp [this]
  simp only [roundEntries, scheduled, List.filter_append] at hnil ⊢
  rw [hnil, List.append_nil]

theorem roundAt_append {D N : List Entry} {q : ℕ} (hN : ∀ e ∈ N, e.round ≠ q) :
    roundAt scheme operations target (D ++ N) q = roundAt scheme operations target D q := by
  simp only [roundAt, roundEntries_append hN]

theorem roundAt_eq_nil {D : List Entry} {q : ℕ} (hD : ∀ e ∈ D, e.round ≠ q) :
    roundAt scheme operations target D q = ⟨[], []⟩ := by
  have := @roundAt_append S Op _ _ scheme operations target [] D q hD
  rw [List.nil_append] at this
  rw [this]
  rfl

/-- The queues and lists with which a pass of the outer loop starts. -/
def Waves.startRound (st : Waves Op) : Waves Op :=
  { st with nextWave := [], localOperations := [], networkOperations := [] }

theorem processWave_of_wave_ne_nil (fuel : ℕ) (rounds : List (Round Op)) (h : st.wave ≠ []) :
    processWave scheme adj target (fuel + 1) rounds st =
      (drainWave scheme adj target (st.ops.length + 1) st.startRound).bind fun st =>
        processWave scheme adj target fuel (rounds ++ [⟨st.localOperations, st.networkOperations⟩])
          { st with wave := st.nextWave, nextWave := st.wave } := by
  simp only [processWave]
  split
  · contradiction
  · rfl

/-- The swap of the queues at the end of a round. -/
theorem WaveInv.nextRound (h : WaveInv scheme operations target E T₀ init r D [] X [] st) :
    WaveInv scheme operations target E T₀ init (r + 1) D X [] []
      (Waves.startRound { st with wave := st.nextWave, nextWave := st.wave }) := by
  have hall : D ++ [] ++ X = D ++ X ++ [] := by simp
  have hat : roundAt scheme operations target D (r + 1) = ⟨[], []⟩ :=
    roundAt_eq_nil fun e he => by
      have := h.round_done e he
      omega
  exact
    { wave := h.nextWave
      nextWave := rfl
      onlineWave := h.onlineWave
      localOperations := by rw [hat]; rfl
      networkOperations := by rw [hat]; rfl
      ops_length := h.ops_length
      ops := h.ops
      inDegree := h.inDegree
      lt := hall ▸ h.lt
      fresh := hall ▸ h.fresh
      nodup := hall ▸ h.nodup
      ready := hall ▸ h.ready
      complete := hall ▸ h.complete
      round_done := fun e he => (h.round_done e he).trans (by omega)
      round_wave := h.round_next
      round_next := by simp
      sorted := hall ▸ h.sorted
      trigger_done := h.trigger_done
      trigger_wait := by simpa using h.trigger_wait
      trigger_last := by simp
      origin := hall ▸ h.origin }

/-- **The outer loop** ends with empty queues, and the rounds it pushes are those of the popped
entries; no round was pushed for an empty wave. -/
theorem processWave_spec (hg : WaveGraph operations E adj T₀) :
    ∀ (fuel r : ℕ) (D W : List Entry) (st : Waves Op),
      WaveInv scheme operations target E T₀ init r D W [] [] st.startRound →
      operations.length < fuel + D.length →
      (∀ q < r, ∃ e ∈ D, e.round = q) → (∀ e ∈ D, e.round < r) →
      ∃ R D' st', processWave scheme adj target fuel
          ((List.range r).map (roundAt scheme operations target D)) st =
            .ok ((List.range R).map (roundAt scheme operations target D'), st') ∧
        WaveInv scheme operations target E T₀ init R D' [] [] [] st'.startRound ∧
        (∀ q < R, ∃ e ∈ D', e.round = q) ∧ ∀ e ∈ D', e.round < R
  | 0, r, D, W, st, h, hf, _, _ => by
      have := h.length_le
      simp only [List.length_append] at this
      omega
  | fuel + 1, r, D, [], st, h, _, hex, hlt => by
      have hw : st.wave = [] := h.wave
      exact ⟨r, D, st, by simp [processWave, hw], h, hex, hlt⟩
  | fuel + 1, r, D, e :: W, st, h, hf, hex, hlt => by
      have hw : st.wave = e.idx :: W.map Entry.idx := h.wave
      have hops : st.ops.length = operations.length := h.ops_length
      obtain ⟨st₁, N, X, h1, h2, h3⟩ := drainWave_spec hg (operations.length + 1) D (e :: W) [] _ h
        (by omega)
      have hnew : ∀ q < r, ∀ x ∈ e :: W ++ N, x.round ≠ q := fun q hq x hx => by
        rw [h2 x hx]
        omega
      have hrounds : (List.range r).map (roundAt scheme operations target D) ++
          [⟨st₁.localOperations, st₁.networkOperations⟩] =
          (List.range (r + 1)).map (roundAt scheme operations target (D ++ e :: W ++ N)) := by
        rw [List.range_succ, List.map_append, List.map_singleton, h3.localOperations,
          h3.networkOperations]
        congr 1
        refine List.map_congr_left fun q hq => ?_
        rw [List.append_assoc, roundAt_append (hnew q (List.mem_range.mp hq))]
      obtain ⟨R, D', st', k1, k2, k3, k4⟩ := processWave_spec hg fuel (r + 1) (D ++ e :: W ++ N) X
        { st₁ with wave := st₁.nextWave, nextWave := st₁.wave } h3.nextRound
        (by simp only [List.length_append, List.length_cons]; omega)
        (by
          intro q hq
          obtain hlt' | hge := Nat.lt_or_ge q r
          · obtain ⟨x, hx, hxq⟩ := hex q hlt'
            exact ⟨x, by simp [hx], hxq⟩
          · exact ⟨e, by simp, by rw [h2 e (by simp)]; omega⟩)
        (by
          intro x hx
          rw [List.append_assoc] at hx
          obtain hx | hx := List.mem_append.mp hx
          · exact (hlt x hx).trans (by omega)
          · rw [h2 x hx]; omega)
      refine ⟨R, D', st', ?_, k2, k3, k4⟩
      rw [← k1, ← hrounds, processWave_of_wave_ne_nil _ _ (by simp [hw]), hops, h1]
      rfl

end MpcCore

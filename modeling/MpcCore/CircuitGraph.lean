import MpcCore.Circuit
import MpcCore.Plan
import MpcCore.Lib.EdgeList

/-! # The graph of a list of operations

What the first two loops of the constructor compute.  `wireProducer_spec` says that the map of
producers is found exactly when no wire is produced twice, `linkConsumers_spec` that the edges
are found exactly when every consumed wire has a producer, and that the adjacency lists and
in-degrees are those of the edge list `edgesFrom`. -/

namespace MpcCore

open Operation EdgeList

variable {Op : Type} [Operation Op]

/-- Operation `p` outputs a wire that operation `c` consumes. -/
def Feeds (ops : List Op) (p c : ℕ) : Prop :=
  ∃ op op' w, ops[p]? = some op ∧ ops[c]? = some op' ∧ w ∈ outputs op ∧ w ∈ inputs op'

/-- The map sends every produced wire to an operation that produces it, and nothing else. -/
def IsProducerMap (ops : List Op) (producer : PMap WireId ℕ) : Prop :=
  ∀ w i, producer.get w = some i ↔ ∃ op, ops[i]? = some op ∧ w ∈ outputs op

/-! ### Producers -/

theorem insertOutputs_spec (idx : ℕ) : ∀ (ws : List WireId) (m : PMap WireId ℕ),
    (∃ m', insertOutputs idx ws m = .ok m' ∧ ws.Nodup ∧ (∀ w ∈ ws, m.get w = none) ∧
      ∀ w, m'.get w = if w ∈ ws then some idx else m.get w) ∨
    ∃ w, insertOutputs idx ws m = .err (.wireProducedManyTimes w) ∧
      w ∈ ws ∧ (m.get w ≠ none ∨ 2 ≤ ws.count w)
  | [], m => .inl ⟨m, rfl, by simp, by simp, by simp⟩
  | w :: ws, m => by
      by_cases hw : (m.get w).isSome = true
      · refine .inr ⟨w, by simp [insertOutputs, hw], by simp, .inl ?_⟩
        exact Option.isSome_iff_ne_none.mp hw
      · have hnone : m.get w = none := by simpa using hw
        have hstep : insertOutputs idx (w :: ws) m = insertOutputs idx ws (m.insert w idx) := by
          simp [insertOutputs, hw]
        rw [hstep]
        obtain ⟨m', h1, h2, h3, h4⟩ | ⟨w', h1, h2, h3⟩ := insertOutputs_spec idx ws (m.insert w idx)
        · have hwn : w ∉ ws := fun h => by simpa using h3 w h
          refine .inl ⟨m', h1, List.nodup_cons.mpr ⟨hwn, h2⟩, ?_, ?_⟩
          · intro v hv
            obtain rfl | hv := List.mem_cons.mp hv
            · exact hnone
            · have := h3 v hv
              rwa [PMap.get_insert_ne m idx (fun h : v = w => hwn (h ▸ hv))] at this
          · intro v
            rw [h4 v, PMap.get_insert]
            by_cases hv : v ∈ ws
            · simp [hv]
            · by_cases hvw : v = w <;> simp [hv, hvw]
        · refine .inr ⟨w', h1, List.mem_cons_of_mem _ h2, ?_⟩
          by_cases hww : w' = w
          · subst hww
            right
            have : 1 ≤ ws.count w' := List.one_le_count_iff.mpr h2
            simp
            omega
          · obtain h3 | h3 := h3
            · left
              rwa [PMap.get_insert_ne m idx hww] at h3
            · right
              exact h3.trans (List.count_le_count_cons ..)

/-- Adding the outputs of one more operation to a map of producers. -/
theorem IsProducerMap.snoc {pre : List Op} {op : Op} {m m' : PMap WireId ℕ}
    (hm : IsProducerMap pre m) (hnew : ∀ w ∈ outputs op, m.get w = none)
    (hm' : ∀ w, m'.get w = if w ∈ outputs op then some pre.length else m.get w) :
    IsProducerMap (pre ++ [op]) m' := by
  intro w i
  rw [hm' w]
  by_cases hw : w ∈ outputs op
  · rw [if_pos hw]
    constructor
    · rintro h
      obtain rfl : pre.length = i := by simpa using h
      exact ⟨op, by simp, hw⟩
    · rintro ⟨op', hi, hw'⟩
      by_cases hlt : i < pre.length
      · rw [List.getElem?_append_left hlt] at hi
        have := (hm w i).mpr ⟨op', hi, hw'⟩
        rw [hnew w hw] at this
        cases this
      · have : i < (pre ++ [op]).length := (List.getElem?_eq_some_iff.mp hi).1
        simp only [List.length_append, List.length_cons, List.length_nil] at this
        congr 1
        omega
  · rw [if_neg hw, hm w i]
    constructor
    · rintro ⟨op', hi, hw'⟩
      refine ⟨op', ?_, hw'⟩
      rw [List.getElem?_append_left (List.getElem?_eq_some_iff.mp hi).1]
      exact hi
    · rintro ⟨op', hi, hw'⟩
      by_cases hlt : i < pre.length
      · rw [List.getElem?_append_left hlt] at hi
        exact ⟨op', hi, hw'⟩
      · rw [List.getElem?_append_right (by omega)] at hi
        have hmem := List.mem_of_getElem? hi
        simp only [List.mem_singleton] at hmem
        exact absurd (hmem ▸ hw') hw

theorem IsProducerMap.mem_producedWires {ops : List Op} {m : PMap WireId ℕ}
    (hm : IsProducerMap ops m) {w : WireId} : m.get w ≠ none ↔ w ∈ producedWires ops := by
  rw [← Option.isSome_iff_ne_none, Option.isSome_iff_exists]
  simp only [producedWires, List.mem_flatMap]
  constructor
  · rintro ⟨i, h⟩
    obtain ⟨op, hi, hw⟩ := (hm w i).mp h
    exact ⟨op, List.mem_of_getElem? hi, hw⟩
  · rintro ⟨op, hop, hw⟩
    obtain ⟨i, hi⟩ := List.getElem?_of_mem hop
    exact ⟨i, (hm w i).mpr ⟨op, hi, hw⟩⟩

/-- The first loop, started after the operations `pre`. -/
theorem wireProducer_spec : ∀ (ops pre : List Op) (m : PMap WireId ℕ),
    IsProducerMap pre m → (producedWires pre).Nodup →
    (∃ m', wireProducer pre.length ops m = .ok m' ∧ (producedWires (pre ++ ops)).Nodup ∧
      IsProducerMap (pre ++ ops) m') ∨
    ∃ w, wireProducer pre.length ops m = .err (.wireProducedManyTimes w) ∧
      2 ≤ (producedWires (pre ++ ops)).count w
  | [], pre, m, hm, hnd => .inl ⟨m, rfl, by simpa using hnd, by simpa using hm⟩
  | op :: ops, pre, m, hm, hnd => by
      have hsplit : producedWires (pre ++ op :: ops) =
          producedWires pre ++ (outputs op ++ producedWires ops) := by simp [producedWires]
      obtain ⟨m₁, h1, h2, h3, h4⟩ | ⟨w, h1, h2, h3⟩ := insertOutputs_spec pre.length (outputs op) m
      · have hsnoc := hm.snoc h3 h4
        have hnd' : (producedWires (pre ++ [op])).Nodup := by
          have : producedWires (pre ++ [op]) = producedWires pre ++ outputs op := by
            simp [producedWires]
          rw [this]
          refine List.Nodup.append hnd h2 fun w hw hw' => ?_
          exact hm.mem_producedWires.mpr hw (h3 w hw')
        have ih := wireProducer_spec ops (pre ++ [op]) m₁ hsnoc hnd'
        simpa [wireProducer, h1] using ih
      · refine .inr ⟨w, by simp [wireProducer, h1], ?_⟩
        rw [hsplit, List.count_append, List.count_append]
        have hone : 1 ≤ (outputs op).count w := List.one_le_count_iff.mpr h2
        obtain h3 | h3 := h3
        · have : 1 ≤ (producedWires pre).count w :=
            List.one_le_count_iff.mpr (hm.mem_producedWires.mp h3)
          omega
        · omega

theorem isProducerMap_nil : IsProducerMap ([] : List Op) .empty := by
  intro w i
  simp

/-- A produced wire has one producer when no wire is produced twice. -/
theorem IsProducerMap.unique {ops : List Op} {m : PMap WireId ℕ} (hm : IsProducerMap ops m)
    {w : WireId} {i j : ℕ} {op op' : Op} (hi : ops[i]? = some op) (hw : w ∈ outputs op)
    (hj : ops[j]? = some op') (hw' : w ∈ outputs op') : i = j := by
  have h1 := (hm w i).mpr ⟨op, hi, hw⟩
  have h2 := (hm w j).mpr ⟨op', hj, hw'⟩
  exact Option.some.inj (h1.symm.trans h2)

/-! ### Edges -/

/-- The edges into the operations of a list whose first index is `idx`, in the order the second
loop adds them. -/
def edgesFrom (producer : PMap WireId ℕ) : ℕ → List Op → List (ℕ × ℕ)
  | _, [] => []
  | idx, op :: ops =>
      (inputs op).filterMap (fun w => (producer.get w).map fun p => (p, idx)) ++
        edgesFrom producer (idx + 1) ops

theorem mem_edgesFrom {producer : PMap WireId ℕ} {p c : ℕ} : ∀ {idx : ℕ} {ops : List Op},
    (p, c) ∈ edgesFrom producer idx ops ↔
      ∃ k op w, ops[k]? = some op ∧ c = idx + k ∧ w ∈ inputs op ∧ producer.get w = some p
  | idx, [] => by simp [edgesFrom]
  | idx, op :: ops => by
      simp only [edgesFrom, List.mem_append, List.mem_filterMap, 
        (mem_edgesFrom : (p, c) ∈ edgesFrom producer (idx + 1) ops ↔ _)]
      constructor
      · rintro (⟨w, hw, h⟩ | ⟨k, op', w, hk, rfl, hw, hp⟩)
        · obtain ⟨q, hq, h⟩ := Option.map_eq_some_iff.mp h
          obtain ⟨rfl, rfl⟩ := Prod.mk.inj h
          exact ⟨0, op, w, rfl, rfl, hw, hq⟩
        · exact ⟨k + 1, op', w, by simpa using hk, by omega, hw, hp⟩
      · rintro ⟨k, op', w, hk, rfl, hw, hp⟩
        cases k with
        | zero =>
            obtain rfl : op = op' := by simpa using hk
            exact .inl ⟨w, hw, by simp [hp]⟩
        | succ k => exact .inr ⟨k, op', w, by simpa using hk, by omega, hw, hp⟩

theorem edgesFrom_sorted (producer : PMap WireId ℕ) : ∀ (idx : ℕ) (ops : List Op),
    (edgesFrom producer idx ops).Pairwise fun e f => e.2 ≤ f.2
  | _, [] => by simp [edgesFrom]
  | idx, op :: ops => by
      have hhead : ∀ e ∈ (inputs op).filterMap (fun w => (producer.get w).map fun p => (p, idx)),
          e.2 = idx := by
        intro e he
        obtain ⟨w, -, h⟩ := List.mem_filterMap.mp he
        obtain ⟨q, -, rfl⟩ := Option.map_eq_some_iff.mp h
        rfl
      refine List.pairwise_append.mpr ⟨?_, edgesFrom_sorted producer (idx + 1) ops, ?_⟩
      · exact List.pairwise_of_forall_mem_list fun e he f hf => by rw [hhead e he, hhead f hf]
      · rintro e he ⟨p, c⟩ hf
        obtain ⟨k, -, -, -, rfl, -⟩ := mem_edgesFrom.mp hf
        rw [hhead e he]
        show idx ≤ idx + 1 + k
        omega

/-- The edges are the pairs of a producer and a consumer. -/
theorem mem_edgesFrom_iff_feeds {ops : List Op} {m : PMap WireId ℕ} (hm : IsProducerMap ops m)
    {p c : ℕ} : (p, c) ∈ edgesFrom m 0 ops ↔ Feeds ops p c := by
  rw [mem_edgesFrom]
  constructor
  · rintro ⟨k, op', w, hk, rfl, hw, hp⟩
    obtain ⟨op, hi, hw'⟩ := (hm w p).mp hp
    exact ⟨op, op', w, hi, by simpa using hk, hw', hw⟩
  · rintro ⟨op, op', w, hp, hc, hw, hw'⟩
    exact ⟨c, op', w, hc, by omega, hw', (hm w p).mpr ⟨op, hp, hw⟩⟩

/-- The adjacency lists and in-degrees are those of an edge list on `n` nodes. -/
structure Graph.HasEdges (g : Graph) (n : ℕ) (E : List (ℕ × ℕ)) : Prop where
  adj_length : g.adj.length = n
  inDegree_length : g.inDegree.length = n
  adj : ∀ p < n, g.adj[p]? = some (succs E p)
  inDegree : ∀ c < n, g.inDegree[c]? = some (preds E c).length

theorem Graph.hasEdges_edgeless (n : ℕ) : (Graph.edgeless n).HasEdges n [] where
  adj_length := by simp [Graph.edgeless]
  inDegree_length := by simp [Graph.edgeless]
  adj p hp := by simp [Graph.edgeless, succs, hp]
  inDegree c hc := by simp [Graph.edgeless, preds, hc]

theorem Graph.HasEdges.addEdge {g : Graph} {n : ℕ} {E : List (ℕ × ℕ)} (h : g.HasEdges n E) (p c : ℕ) :
    (g.addEdge p c).HasEdges n (E ++ [(p, c)]) where
  adj_length := by simp [Graph.addEdge, h.adj_length]
  inDegree_length := by simp [Graph.addEdge, h.inDegree_length]
  adj q hq := by
    have hs : succs (E ++ [(p, c)]) q = succs E q ++ if p = q then [c] else [] := by
      rw [succs_append]
      congr 1
      by_cases hpq : p = q <;> simp [succs, hpq]
    simp only [Graph.addEdge, List.getElem?_modify, h.adj q hq, hs, Option.map_eq_map, Option.map_some]
    by_cases hpq : p = q <;> simp [hpq]
  inDegree d hd := by
    have hs : preds (E ++ [(p, c)]) d = preds E d ++ if c = d then [p] else [] := by
      rw [preds_append]
      congr 1
      by_cases hcd : c = d <;> simp [preds, hcd]
    simp only [Graph.addEdge, List.getElem?_modify, h.inDegree d hd, hs, Option.map_eq_map,
      Option.map_some]
    by_cases hcd : c = d <;> simp [hcd]

theorem linkInputs_spec {n : ℕ} (producer : PMap WireId ℕ) (idx : ℕ) :
    ∀ (ws : List WireId) (g : Graph) (E : List (ℕ × ℕ)), g.HasEdges n E →
    (∃ g', linkInputs producer idx ws g = .ok g' ∧ (∀ w ∈ ws, producer.get w ≠ none) ∧
      g'.HasEdges n (E ++ ws.filterMap fun w => (producer.get w).map fun p => (p, idx))) ∨
    ∃ w, linkInputs producer idx ws g = .err (.wireConsumedButNotProduced w) ∧
      w ∈ ws ∧ producer.get w = none
  | [], g, E, h => .inl ⟨g, rfl, by simp, by simpa using h⟩
  | w :: ws, g, E, h => by
      cases hw : producer.get w with
      | none => exact .inr ⟨w, by simp [linkInputs, hw], by simp, hw⟩
      | some p =>
          rcases linkInputs_spec producer idx ws (g.addEdge p idx) (E ++ [(p, idx)]) (h.addEdge p idx)
            with ⟨g', h1, h2, h3⟩ | ⟨v, h1, h2, h3⟩
          · refine .inl ⟨g', by simpa [linkInputs, hw] using h1, ?_, ?_⟩
            · intro v hv
              obtain rfl | hv := List.mem_cons.mp hv
              · simp [hw]
              · exact h2 v hv
            · simpa [hw] using h3
          · exact .inr ⟨v, by simpa [linkInputs, hw] using h1, List.mem_cons_of_mem _ h2, h3⟩

/-- The second loop, started at index `idx` with the edges `E`. -/
theorem linkConsumers_spec {n : ℕ} (producer : PMap WireId ℕ) :
    ∀ (ops : List Op) (idx : ℕ) (g : Graph) (E : List (ℕ × ℕ)), g.HasEdges n E →
    (∃ g', linkConsumers producer idx ops g = .ok g' ∧ (∀ w ∈ consumedWires ops, producer.get w ≠ none) ∧
      g'.HasEdges n (E ++ edgesFrom producer idx ops)) ∨
    ∃ w, linkConsumers producer idx ops g = .err (.wireConsumedButNotProduced w) ∧
      w ∈ consumedWires ops ∧ producer.get w = none
  | [], idx, g, E, h => .inl ⟨g, rfl, by simp [consumedWires], by simpa [edgesFrom] using h⟩
  | op :: ops, idx, g, E, h => by
      have hc : consumedWires (op :: ops) = inputs op ++ consumedWires ops := by simp [consumedWires]
      rw [hc]
      obtain ⟨g₁, h1, h2, h3⟩ | ⟨w, h1, h2, h3⟩ := linkInputs_spec producer idx (inputs op) g E h
      · obtain ⟨g', k1, k2, k3⟩ | ⟨w, k1, k2, k3⟩ := linkConsumers_spec producer ops (idx + 1) g₁ _ h3
        · refine .inl ⟨g', by simp [linkConsumers, h1, k1], ?_, by simpa [edgesFrom] using k3⟩
          intro w hw
          obtain hw | hw := List.mem_append.mp hw
          · exact h2 w hw
          · exact k2 w hw
        · exact .inr ⟨w, by simp [linkConsumers, h1, k1], List.mem_append_right _ k2, k3⟩
      · exact .inr ⟨w, by simp [linkConsumers, h1], List.mem_append_left _ h2, h3⟩

end MpcCore

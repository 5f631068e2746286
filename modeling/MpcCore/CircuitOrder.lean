import MpcCore.CircuitAccept
import MpcCore.Lib.ServiceOrder

/-! # When a schedule stores every wire before it is used

The queue of `process_wave` serves first what was released first, and it places a released
operation by the round of the one that released it.  A network operation that is served before a
local one of its own round is overtaken: what consumes the outputs of both is released by the
local one, into the round of both.

* `PhaseLog.serviceLog`: one run is a run of the general queue of `ServiceOrder`.
* `MpcCircuit.validSchedule_iff`: the schedule is valid exactly when, for every operation, the
  producer served last is one that finishes last. -/

namespace MpcCore

open Operation CircuitScheme EdgeList ServiceOrder

variable {S Op : Type} [Operation Op] [CircuitScheme S Op]

/-! ### The condition -/

section condition

variable (scheme : S) (operations : List Op)

/-- The rounds an operation takes before its outputs can be used: none when it is local. -/
def delayAt (i : ℕ) : ℕ := if isLocalAt scheme operations i then 0 else 1

/-- `p` feeds `c` and depends on no input. -/
def OfflineFeeds (p c : ℕ) : Prop := Feeds operations p c ∧ ¬ InputDependent operations p

/-- `p` feeds `c` and depends on an input. -/
def OnlineFeeds (p c : ℕ) : Prop := Feeds operations p c ∧ InputDependent operations p

/-- The order of service of the offline run, which starts with the operations without producers in
the order they are listed. -/
def OfflineBefore : ℕ → ℕ → Prop :=
  ServedBefore (OfflineFeeds operations) (delayAt scheme operations) (· < ·)

/-- For every operation of both phases, among the producers of its phase the one served last is one
that finishes last.  The online run starts with the inputs the offline run has come across. -/
structure LastProducerFinishesLast : Prop where
  offline : LastFinishesLast (OfflineFeeds operations) (delayAt scheme operations) (· < ·)
    {c | c < operations.length ∧ ¬ InputDependent operations c}
  online : LastFinishesLast (OnlineFeeds operations) (delayAt scheme operations)
    (OfflineBefore scheme operations) {c | c < operations.length ∧ InputDependent operations c}

end condition

variable {scheme : S} {operations : List Op} {target : Bool} {E : List (ℕ × ℕ)}
  {T₀ init : List ℕ} {D D₁ D₂ : List Entry} {R R₁ R₂ : ℕ}

/-! ### Positions and rounds -/

theorem getElem?_lt_iff {l : List ℕ} {f : ℕ → ℕ} (hl : l.Pairwise fun a b => f a < f b) {i j a b : ℕ}
    (hi : l[i]? = some a) (hj : l[j]? = some b) : f a < f b ↔ i < j := by
  obtain ⟨hi', rfl⟩ := List.getElem?_eq_some_iff.mp hi
  obtain ⟨hj', rfl⟩ := List.getElem?_eq_some_iff.mp hj
  have hlt := List.pairwise_iff_getElem.mp hl
  obtain h | rfl | h := Nat.lt_trichotomy i j
  · exact ⟨fun _ => h, fun _ => hlt i j hi' hj' h⟩
  · simp
  · have := hlt j i hj' hi' h
    omega

/-- The position of the pop of an index. -/
def posOf (D : List Entry) (i : ℕ) : ℕ := (D.map Entry.idx).idxOf i

/-- The round of an index. -/
def roundOf (D : List Entry) (i : ℕ) : ℕ := (D.find? fun e => e.idx == i).elim 0 Entry.round

namespace PhaseLog

variable (h : PhaseLog scheme operations target E T₀ init D R)
include h

theorem posOf_eq {j : ℕ} {e : Entry} (hj : D[j]? = some e) : posOf D e.idx = j := by
  obtain ⟨hj', rfl⟩ := List.getElem?_eq_some_iff.mp hj
  have := h.nodup.idxOf_getElem j (by simpa using hj')
  simpa [posOf] using this

theorem getElem?_posOf {e : Entry} (he : e ∈ D) : D[posOf D e.idx]? = some e := by
  obtain ⟨j, hj⟩ := List.getElem?_of_mem he
  rw [h.posOf_eq hj, hj]

theorem roundOf_eq {e : Entry} (he : e ∈ D) : roundOf D e.idx = e.round := by
  unfold roundOf
  cases hf : D.find? fun f => f.idx == e.idx with
  | none => exact absurd (List.find?_eq_none.mp hf e he) (by simp)
  | some f =>
      have h1 : f.idx = e.idx := by simpa using List.find?_some hf
      rw [h.eq_of_idx (List.mem_of_find?_eq_some hf) he h1]
      rfl

theorem before_of_pos {e f : Entry} (he : e ∈ D) (hf : f ∈ D) (hlt : posOf D e.idx < posOf D f.idx) :
    e.Before f := by
  obtain ⟨hi, hie⟩ := List.getElem?_eq_some_iff.mp (h.getElem?_posOf he)
  obtain ⟨hj, hjf⟩ := List.getElem?_eq_some_iff.mp (h.getElem?_posOf hf)
  have := List.pairwise_iff_getElem.mp h.sorted _ _ hi hj hlt
  rwa [hie, hjf] at this

theorem eq_of_pos {e f : Entry} (he : e ∈ D) (hf : f ∈ D) (heq : posOf D e.idx = posOf D f.idx) :
    e = f := by
  have h1 := h.getElem?_posOf he
  rw [heq, h.getElem?_posOf hf] at h1
  exact (Option.some.inj h1).symm

theorem pairwise_posOf : (D.map Entry.idx).Pairwise fun a b => posOf D a < posOf D b := by
  rw [List.pairwise_iff_getElem]
  intro i j hi hj hij
  rw [List.length_map] at hi hj
  rw [List.getElem_map, List.getElem_map, h.posOf_eq (List.getElem?_eq_getElem hi),
    h.posOf_eq (List.getElem?_eq_getElem hj)]
  exact hij

/-- An entry was there at the start, or it was released by the last of its producers. -/
theorem origin_cases {P : ℕ → ℕ → Prop} (hP : ∀ c ∈ D.map Entry.idx, ∀ p, P p c ↔ (p, c) ∈ E ∧ p ∉ T₀) {e : Entry}
    (he : e ∈ D) :
    (IsSource P e.idx ∧ e.trigger = 0 ∧ e.round = 0 ∧ init[e.rank]? = some e.idx) ∨
      ∃ t ∈ D, P t.idx e.idx ∧ e.trigger = posOf D t.idx + 1 ∧ e.rank = e.idx ∧
        e.round = t.round + delayAt scheme operations t.idx ∧ ∀ p, P p e.idx → posOf D p ≤ posOf D t.idx := by
  have hPe := hP e.idx (List.mem_map_of_mem he)
  obtain ⟨h1, h2, h3, h4⟩ | ⟨k, t, h1, h2, h3, h4, h5, h6, h7⟩ := h.origin e he
  · exact .inl ⟨fun p hp => ((hPe p).mp hp).2 (h4 p ((hPe p).mp hp).1), h1, h2, h3⟩
  · have ht := List.mem_of_getElem? h2
    refine .inr ⟨t, ht, (hPe _).mpr ⟨h4, h.fresh t ht⟩, by rw [h.posOf_eq h2, h1], h5, h6, fun p hp => ?_⟩
    obtain ⟨hpE, hpT⟩ := (hPe p).mp hp
    obtain ⟨j, s, hj, hs, rfl, -⟩ := h7 p hpE hpT
    rw [h.posOf_eq hs, h.posOf_eq h2]
    exact hj

/-- The producer of greatest position is the one that has released the entry. -/
theorem released_by {P : ℕ → ℕ → Prop} (hP : ∀ c ∈ D.map Entry.idx, ∀ p, P p c ↔ (p, c) ∈ E ∧ p ∉ T₀) {e : Entry}
    (he : e ∈ D) {t : ℕ} (ht : P t e.idx) (hmax : ∀ p, P p e.idx → posOf D p ≤ posOf D t) :
    e.trigger = posOf D t + 1 ∧ e.rank = e.idx := by
  obtain ⟨h1, -⟩ | ⟨s, -, h2, h3, h4, -, h6⟩ := h.origin_cases hP he
  · exact absurd ht (h1 t)
  · have := h6 t ht
    have := hmax _ h2
    exact ⟨by omega, h4⟩

theorem lt_of_pos {e f : Entry} (he : e ∈ D) (hf : f ∈ D) (hround : e.round = f.round) :
    posOf D e.idx < posOf D f.idx ↔ e.trigger < f.trigger ∨ e.trigger = f.trigger ∧ e.rank < f.rank := by
  constructor
  · intro hlt
    have := h.before_of_pos he hf hlt
    unfold Entry.Before at this
    omega
  · intro hlt
    by_contra hge
    obtain hpos | hpos := Nat.lt_or_eq_of_le (not_lt.mp hge)
    · have := h.before_of_pos hf he hpos
      unfold Entry.Before at this
      omega
    · rw [h.eq_of_pos hf he hpos] at hlt
      omega

theorem source_iff {P first : ℕ → ℕ → Prop} (hP : ∀ c ∈ D.map Entry.idx, ∀ p, P p c ↔ (p, c) ∈ E ∧ p ∉ T₀)
    (hfirst : ∀ (i j a b : ℕ), init[i]? = some a → init[j]? = some b → (first a b ↔ i < j)) {e f : Entry}
    (he : e ∈ D) (hf : f ∈ D) (hse : IsSource P e.idx) (hsf : IsSource P f.idx) :
    first e.idx f.idx ↔ posOf D e.idx < posOf D f.idx := by
  obtain ⟨-, e2, e3, e4⟩ | ⟨t, -, h2, -⟩ := h.origin_cases hP he
  · obtain ⟨-, f2, f3, f4⟩ | ⟨t, -, h2, -⟩ := h.origin_cases hP hf
    · rw [hfirst _ _ _ _ e4 f4, h.lt_of_pos he hf (by omega)]
      omega
    · exact absurd h2 (hsf _)
  · exact absurd h2 (hse _)

theorem source_before {P : ℕ → ℕ → Prop} (hP : ∀ c ∈ D.map Entry.idx, ∀ p, P p c ↔ (p, c) ∈ E ∧ p ∉ T₀)
    {e f : Entry} (he : e ∈ D) (hf : f ∈ D) (hse : IsSource P e.idx) (hsf : ¬IsSource P f.idx) :
    posOf D e.idx < posOf D f.idx := by
  obtain ⟨-, e2, e3, -⟩ | ⟨t, -, h2, -⟩ := h.origin_cases hP he
  · obtain ⟨f1, -⟩ | ⟨t, -, -, f3, -⟩ := h.origin_cases hP hf
    · exact absurd f1 hsf
    · by_contra hge
      obtain hpos | hpos := Nat.lt_or_eq_of_le (not_lt.mp hge)
      · have := h.before_of_pos hf he hpos
        unfold Entry.Before at this
        omega
      · rw [h.eq_of_pos hf he hpos] at f3
        omega
  · exact absurd h2 (hse _)

/-- In one round, what is released first stands first. -/
theorem release_before {P : ℕ → ℕ → Prop} (hP : ∀ c ∈ D.map Entry.idx, ∀ p, P p c ↔ (p, c) ∈ E ∧ p ∉ T₀)
    {e f s u : Entry} (he : e ∈ D) (hf : f ∈ D) (hs : s ∈ D) (hu : u ∈ D) (hse : P s.idx e.idx)
    (hsmax : ∀ p, P p e.idx → posOf D p ≤ posOf D s.idx) (huf : P u.idx f.idx)
    (humax : ∀ p, P p f.idx → posOf D p ≤ posOf D u.idx) (hlt : posOf D e.idx < posOf D f.idx)
    (hround : e.round = f.round) : posOf D s.idx < posOf D u.idx ∨ s.idx = u.idx ∧ e.idx < f.idx := by
  have hbefore := h.before_of_pos he hf hlt
  obtain ⟨e1, e2⟩ := h.released_by hP he hse hsmax
  obtain ⟨f1, f2⟩ := h.released_by hP hf huf humax
  by_cases hsu : posOf D s.idx < posOf D u.idx
  · exact .inl hsu
  · right
    unfold Entry.Before at hbefore
    have hpos : posOf D s.idx = posOf D u.idx := by omega
    exact ⟨by rw [h.eq_of_pos hs hu hpos], by omega⟩

/-- **One run is a run of the queue.**  `P` are the edges from what was not scheduled before the
run, and `first` orders the indices it starts with. -/
theorem serviceLog {P first : ℕ → ℕ → Prop}
    (hP : ∀ c ∈ D.map Entry.idx, ∀ p, P p c ↔ (p, c) ∈ E ∧ p ∉ T₀)
    (hfirst : ∀ (i j a b : ℕ), init[i]? = some a → init[j]? = some b → (first a b ↔ i < j)) :
    ServiceLog P (delayAt scheme operations) first {c | c ∈ D.map Entry.idx}
      {c | c ∈ (scheduled operations target D).map Entry.idx} (posOf D) (roundOf D) := by
  have hfeeds : ∀ c ∈ D.map Entry.idx, ∀ p, P p c →
      p ∈ (scheduled operations target D).map Entry.idx := by
    intro c hc p hp
    obtain ⟨e, he, rfl⟩ := List.mem_map.mp hc
    obtain ⟨hpE, hpT⟩ := (hP _ hc p).mp hp
    exact (List.mem_append.mp (h.ready e he p hpE)).resolve_right hpT
  have hsub : ∀ c ∈ (scheduled operations target D).map Entry.idx, c ∈ D.map Entry.idx := by
    intro c hc
    obtain ⟨e, he, rfl⟩ := List.mem_map.mp hc
    exact List.mem_map_of_mem (mem_scheduled.mp he).1
  constructor
  case sub => exact hsub
  case feeds => exact hfeeds
  case pos_inj =>
    rintro a ha b hb hab
    obtain ⟨e, he, rfl⟩ := List.mem_map.mp ha
    obtain ⟨f, hf, rfl⟩ := List.mem_map.mp hb
    rw [h.eq_of_pos he hf hab]
  case mono =>
    rintro a ha b hb hab
    obtain ⟨e, he, rfl⟩ := List.mem_map.mp ha
    obtain ⟨f, hf, rfl⟩ := List.mem_map.mp hb
    rw [h.roundOf_eq he, h.roundOf_eq hf]
    exact h.round_mono (h.getElem?_posOf he) (h.getElem?_posOf hf) hab.le
  case source =>
    rintro c hc hsrc
    obtain ⟨e, he, rfl⟩ := List.mem_map.mp hc
    rw [h.roundOf_eq he]
    obtain ⟨-, -, h3, -⟩ | ⟨t, -, h2, -⟩ := h.origin_cases hP he
    · exact h3
    · exact absurd h2 (hsrc _)
  case released =>
    rintro c hc hsrc
    obtain ⟨e, he, rfl⟩ := List.mem_map.mp hc
    obtain ⟨h1, -⟩ | ⟨t, ht, h2, h3, -, h5, h6⟩ := h.origin_cases hP he
    · exact absurd h1 hsrc
    · refine ⟨t.idx, h2, ?_, h6, by rw [h.roundOf_eq he, h.roundOf_eq ht, h5]⟩
      have := h.trigger_le _ e (h.getElem?_posOf he)
      omega
  case first_iff =>
    rintro a ha b hb hsa hsb
    obtain ⟨e, he, rfl⟩ := List.mem_map.mp ha
    obtain ⟨f, hf, rfl⟩ := List.mem_map.mp hb
    exact h.source_iff hP hfirst he hf hsa hsb
  case source_lt =>
    rintro a ha b hb hsa hsb
    obtain ⟨e, he, rfl⟩ := List.mem_map.mp ha
    obtain ⟨f, hf, rfl⟩ := List.mem_map.mp hb
    exact h.source_before hP he hf hsa hsb
  case release_lt =>
    rintro a ha b hb t u ht htmax hu humax hab hround
    obtain ⟨s, hs, rfl⟩ := List.mem_map.mp (hsub _ (hfeeds a ha t ht))
    obtain ⟨v, hv, rfl⟩ := List.mem_map.mp (hsub _ (hfeeds b hb u hu))
    obtain ⟨e, he, rfl⟩ := List.mem_map.mp ha
    obtain ⟨f, hf, rfl⟩ := List.mem_map.mp hb
    rw [h.roundOf_eq he, h.roundOf_eq hf] at hround
    exact h.release_before hP he hf hs hv ht htmax hu humax hab hround

end PhaseLog

/-! ### Stored wires -/

theorem Entry.Before.asymm {e f : Entry} (h : e.Before f) : ¬ f.Before e := by
  unfold Entry.Before at *
  omega

theorem Entry.Before.irrefl {e : Entry} : ¬ e.Before e := fun h => h.asymm h

theorem range_map_eq_append_iff {α : Type} {f : ℕ → α} {n : ℕ} {done rest : List α} {x : α} :
    (List.range n).map f = done ++ x :: rest →
      ∃ q < n, done = (List.range q).map f ∧ x = f q := by
  intro h
  obtain ⟨l₁, l₂, h1, rfl, h3⟩ := List.map_eq_append_iff.mp h
  obtain ⟨a, l₃, rfl, rfl, -⟩ := List.map_eq_cons_iff.mp h3
  have hlen : l₁.length < n := by
    have := congrArg List.length h1
    simp at this
    omega
  have ha : a = l₁.length := by
    have := congrArg (fun l => l[l₁.length]?) h1
    simpa [hlen] using this.symm
  have hl : l₁ = List.range l₁.length := by
    have := congrArg (List.take l₁.length) h1
    simpa [List.take_range, hlen.le] using this.symm
  exact ⟨l₁.length, hlen, by rw [← hl], by rw [ha]⟩

theorem range_map_split {α : Type} (f : ℕ → α) {n q : ℕ} (hq : q < n) :
    ∃ rest, (List.range n).map f = (List.range q).map f ++ f q :: rest := by
  obtain ⟨k, rfl⟩ : ∃ k, n = q + (k + 1) := ⟨n - q - 1, by omega⟩
  refine ⟨((List.range k).map (q + 1 + ·)).map f, ?_⟩
  rw [List.range_add, List.map_append, List.range_succ_eq_map]
  simp [Function.comp_def, Nat.add_assoc, Nat.add_comm 1]

section stored

variable {m : PMap WireId ℕ} (hm : IsProducerMap operations m)
include hm

theorem mem_producedWires_opsAt {l : List Entry} {w : WireId} :
    w ∈ producedWires (opsAt operations l) ↔ ∃ e ∈ l, m.get w = some e.idx := by
  rw [mem_producedWires]
  constructor
  · rintro ⟨op, hop, hw⟩
    obtain ⟨e, he, heop⟩ := mem_opsAt.mp hop
    exact ⟨e, he, (hm w e.idx).mpr ⟨op, heop, hw⟩⟩
  · rintro ⟨e, he, hw⟩
    obtain ⟨op, heop, hw⟩ := (hm w e.idx).mp hw
    exact ⟨op, mem_opsAt.mpr ⟨e, he, heop⟩, hw⟩

theorem mem_producedWires_rounds {q : ℕ} {w : WireId} :
    w ∈ producedWires (((List.range q).map (roundAt scheme operations target D)).flatMap Round.operations) ↔
      ∃ e ∈ scheduled operations target D, e.round < q ∧ m.get w = some e.idx := by
  have hround : ∀ k, w ∈ producedWires (roundAt scheme operations target D k).operations ↔
      ∃ e ∈ scheduled operations target D, e.round = k ∧ m.get w = some e.idx := by
    intro k
    rw [Round.operations, producedWires_append, List.mem_append]
    simp only [roundAt, mem_producedWires_opsAt hm, mem_roundEntries, mem_scheduled]
    constructor
    · rintro (⟨e, ⟨h1, h2, h3, -⟩, h4⟩ | ⟨e, ⟨h1, h2, h3, -⟩, h4⟩) <;> exact ⟨e, ⟨h1, h2⟩, h3, h4⟩
    · rintro ⟨e, ⟨h1, h2⟩, h3, h4⟩
      cases hl : isLocalAt scheme operations e.idx with
      | true => exact .inl ⟨e, ⟨h1, h2, h3, hl⟩, h4⟩
      | false => exact .inr ⟨e, ⟨h1, h2, h3, hl⟩, h4⟩
  have hflat : w ∈ producedWires (((List.range q).map (roundAt scheme operations target D)).flatMap
      Round.operations) ↔ ∃ k < q, w ∈ producedWires (roundAt scheme operations target D k).operations := by
    simp [producedWires]
    aesop
  rw [hflat]
  constructor
  · rintro ⟨k, hk, hw⟩
    obtain ⟨e, he, rfl, hg⟩ := (hround k).mp hw
    exact ⟨e, he, hk, hg⟩
  · rintro ⟨e, he, hk, hw⟩
    exact ⟨e.round, hk, (hround _).mpr ⟨e, he, rfl, hw⟩⟩

/-- A run that stores before use has stored what an entry of a round consumes in an earlier round, or
by a local operation of the same one. -/
theorem PhaseLog.placed_of_storedFrom (h : PhaseLog scheme operations target (edgesFrom m 0 operations) T₀ init D R)
    {stored : List WireId} (hst : StoredFrom stored ((List.range R).map (roundAt scheme operations target D)))
    {e : Entry} (he : e ∈ scheduled operations target D) {op : Op} (hop : operations[e.idx]? = some op) {w : WireId}
    (hw : w ∈ inputs op) :
    w ∈ stored ++ producedWires (((List.range e.round).map (roundAt scheme operations target D)).flatMap
        Round.operations) ∨
      ∃ s ∈ roundEntries scheme operations target D e.round true, m.get w = some s.idx := by
  obtain ⟨heD, hd⟩ := mem_scheduled.mp he
  obtain ⟨rest, hrest⟩ := range_map_split (roundAt scheme operations target D) (h.round_lt e heD)
  have hround := hst _ _ _ hrest
  cases hl : isLocalAt scheme operations e.idx with
  | true =>
      obtain ⟨l₁, l₂, hsplit⟩ := List.append_of_mem (mem_roundEntries.mpr ⟨heD, hd, rfl, hl⟩)
      have hops : (roundAt scheme operations target D e.round).localOperations =
          opsAt operations l₁ ++ op :: opsAt operations l₂ := by
        simp [roundAt, hsplit, opsAt, hop]
      obtain h1 | h1 := List.mem_append.mp (hround.localOps _ _ _ hops w hw)
      · exact .inl h1
      · obtain ⟨s, hs, hg⟩ := (mem_producedWires_opsAt hm).mp h1
        exact .inr ⟨s, by rw [hsplit]; simp [hs], hg⟩
  | false =>
      have hmem : op ∈ (roundAt scheme operations target D e.round).networkOperations :=
        mem_opsAt.mpr ⟨e, mem_roundEntries.mpr ⟨heD, hd, rfl, hl⟩, hop⟩
      obtain h1 | h1 := List.mem_append.mp (hround.networkOps op hmem w hw)
      · exact .inl h1
      · exact .inr ((mem_producedWires_opsAt hm).mp h1)

/-- A run that stores before use is in time. -/
theorem PhaseLog.inTime_of_storedFrom (h : PhaseLog scheme operations target (edgesFrom m 0 operations) T₀ init D R)
    {stored : List WireId} (hstored : ∀ w, w ∈ stored ↔ ∃ p ∈ T₀, m.get w = some p) {P : ℕ → ℕ → Prop}
    (hP : ∀ c ∈ D.map Entry.idx, ∀ p, P p c ↔ (p, c) ∈ edgesFrom m 0 operations ∧ p ∉ T₀)
    (hst : StoredFrom stored ((List.range R).map (roundAt scheme operations target D))) :
    InTime P (delayAt scheme operations) {c | c ∈ (scheduled operations target D).map Entry.idx} (roundOf D) := by
  rintro c hc p hp
  obtain ⟨e, he, rfl⟩ := List.mem_map.mp hc
  have heD := (mem_scheduled.mp he).1
  obtain ⟨hpE, hpT⟩ := (hP _ (List.mem_map_of_mem heD) p).mp hp
  obtain ⟨s, hs, rfl⟩ := List.mem_map.mp ((List.mem_append.mp (h.ready e heD p hpE)).resolve_right hpT)
  have hsD := (mem_scheduled.mp hs).1
  rw [h.roundOf_eq heD, h.roundOf_eq hsD]
  obtain ⟨op', op, w, hop', hop, hw', hw⟩ := (mem_edgesFrom_iff_feeds hm).mp hpE
  have hget : m.get w = some s.idx := (hm w s.idx).mpr ⟨op', hop', hw'⟩
  have hsame : ∀ e' ∈ D, m.get w = some e'.idx → e' = s := fun e' he' hg =>
    h.eq_of_idx he' hsD (Option.some.inj (hg.symm.trans hget))
  obtain hearlier | ⟨e', he', hg⟩ := h.placed_of_storedFrom hm hst he hop hw
  · obtain h1 | h1 := List.mem_append.mp hearlier
    · obtain ⟨p, hp, hg⟩ := (hstored w).mp h1
      obtain rfl : s.idx = p := Option.some.inj (hget.symm.trans hg)
      exact absurd hp hpT
    · obtain ⟨e', he', hlt, hg⟩ := (mem_producedWires_rounds hm).mp h1
      obtain rfl := hsame e' (mem_scheduled.mp he').1 hg
      unfold delayAt
      split <;> omega
  · obtain ⟨he'D, -, hr, hl⟩ := mem_roundEntries.mp he'
    obtain rfl := hsame e' he'D hg
    simp [delayAt, hl, hr]

/-- A run that is in time has served the producer of what an entry consumes in an earlier round, or
before the entry by a local operation of the same round. -/
theorem PhaseLog.placed_of_inTime (h : PhaseLog scheme operations target (edgesFrom m 0 operations) T₀ init D R)
    (hcons : ∀ w ∈ consumedWires operations, m.get w ≠ none) {stored : List WireId}
    (hstored : ∀ w, w ∈ stored ↔ ∃ p ∈ T₀, m.get w = some p) {P : ℕ → ℕ → Prop}
    (hP : ∀ c ∈ D.map Entry.idx, ∀ p, P p c ↔ (p, c) ∈ edgesFrom m 0 operations ∧ p ∉ T₀)
    (hin : InTime P (delayAt scheme operations) {c | c ∈ (scheduled operations target D).map Entry.idx} (roundOf D))
    {e : Entry} (he : e ∈ scheduled operations target D) {op : Op} (hop : operations[e.idx]? = some op) {w : WireId}
    (hw : w ∈ inputs op) :
    w ∈ stored ++ producedWires (((List.range e.round).map (roundAt scheme operations target D)).flatMap
        Round.operations) ∨
      ∃ s ∈ roundEntries scheme operations target D e.round true, m.get w = some s.idx ∧ s.Before e := by
  have heD := (mem_scheduled.mp he).1
  cases hg : m.get w with
  | none => exact absurd hg (hcons w (List.mem_flatMap.mpr ⟨op, List.mem_of_getElem? hop, hw⟩))
  | some p =>
      obtain ⟨op', hop', hw'⟩ := (hm w p).mp hg
      have hpE := (mem_edgesFrom_iff_feeds hm).mpr ⟨op', op, w, hop', hop, hw', hw⟩
      by_cases hpT : p ∈ T₀
      · exact .inl (List.mem_append_left _ ((hstored w).mpr ⟨p, hpT, hg⟩))
      obtain ⟨i, s, hi, hs, rfl, hd⟩ := h.pred_earlier (h.getElem?_posOf heD) hpE hpT
      have hsD := List.mem_of_getElem? hs
      have hle := hin e.idx (List.mem_map_of_mem he) s.idx ((hP _ (List.mem_map_of_mem heD) _).mpr ⟨hpE, hpT⟩)
      rw [h.roundOf_eq heD, h.roundOf_eq hsD] at hle
      by_cases hlt : s.round < e.round
      · exact .inl (List.mem_append_right _
          ((mem_producedWires_rounds hm).mpr ⟨s, mem_scheduled.mpr ⟨hsD, hd⟩, hlt, hg⟩))
      · have hdelay : delayAt scheme operations s.idx = 0 := by omega
        have hl : isLocalAt scheme operations s.idx = true := by
          by_contra hl
          simp [delayAt, hl] at hdelay
        refine .inr ⟨s, mem_roundEntries.mpr ⟨hsD, hd, by omega, hl⟩, rfl, h.before_of_pos hsD heD ?_⟩
        rw [h.posOf_eq hs]
        exact hi

omit hm in
theorem Entry.Before.mem_of_sorted {l l' : List Entry} {e s : Entry} (h : s.Before e)
    (hsorted : (l ++ e :: l').Pairwise Entry.Before) (hs : s ∈ l ++ e :: l') : s ∈ l := by
  obtain hs | hs := List.mem_append.mp hs
  · exact hs
  obtain rfl | hs := List.mem_cons.mp hs
  · exact absurd h Entry.Before.irrefl
  · have hafter : e.Before s := (List.pairwise_cons.mp (List.pairwise_append.mp hsorted).2.1).1 s hs
    exact absurd h hafter.asymm

/-- A run that is in time stores before use. -/
theorem PhaseLog.storedFrom_of_inTime (h : PhaseLog scheme operations target (edgesFrom m 0 operations) T₀ init D R)
    (hcons : ∀ w ∈ consumedWires operations, m.get w ≠ none) {stored : List WireId}
    (hstored : ∀ w, w ∈ stored ↔ ∃ p ∈ T₀, m.get w = some p) {P : ℕ → ℕ → Prop}
    (hP : ∀ c ∈ D.map Entry.idx, ∀ p, P p c ↔ (p, c) ∈ edgesFrom m 0 operations ∧ p ∉ T₀)
    (hin : InTime P (delayAt scheme operations) {c | c ∈ (scheduled operations target D).map Entry.idx} (roundOf D)) :
    StoredFrom stored ((List.range R).map (roundAt scheme operations target D)) := by
  intro done round rest hsplit
  obtain ⟨q, hq, rfl, rfl⟩ := range_map_eq_append_iff hsplit
  constructor
  · intro done op rest hops w hw
    obtain ⟨l₁, l₂, hl, rfl, h2⟩ := List.filterMap_eq_append_iff.mp hops
    obtain ⟨l₃, e, l₄, rfl, hnone, hop, -⟩ := List.filterMap_eq_cons_iff.mp h2
    have he : e ∈ roundEntries scheme operations target D q true := by rw [hl]; simp
    obtain ⟨heD, hd, rfl, -⟩ := mem_roundEntries.mp he
    obtain h1 | ⟨s, hs, hg, hbefore⟩ := h.placed_of_inTime hm hcons hstored hP hin (mem_scheduled.mpr ⟨heD, hd⟩) hop hw
    · exact List.mem_append_left _ h1
    rw [hl, ← List.append_assoc] at hs
    have hsorted : (l₁ ++ l₃ ++ e :: l₄).Pairwise Entry.Before := by
      rw [List.append_assoc, ← hl]
      exact h.sorted.sublist (List.filter_sublist.trans List.filter_sublist)
    refine List.mem_append_right _ ((mem_producedWires_opsAt hm).mpr ⟨s, ?_, hg⟩)
    obtain hs | hs := List.mem_append.mp (hbefore.mem_of_sorted hsorted hs)
    · exact hs
    · obtain ⟨op', hop', -⟩ := (hm w s.idx).mp hg
      rw [hnone s hs] at hop'
      cases hop'
  · intro op hop w hw
    obtain ⟨e, he, hop'⟩ := mem_opsAt.mp hop
    obtain ⟨heD, hd, rfl, -⟩ := mem_roundEntries.mp he
    obtain h1 | ⟨s, hs, hg, -⟩ := h.placed_of_inTime hm hcons hstored hP hin (mem_scheduled.mpr ⟨heD, hd⟩) hop' hw
    · exact List.mem_append_left _ h1
    · exact List.mem_append_right _ ((mem_producedWires_opsAt hm).mpr ⟨s, hs, hg⟩)

/-- **One run stores before use exactly when it is in time.** -/
theorem PhaseLog.storedFrom_iff (h : PhaseLog scheme operations target (edgesFrom m 0 operations) T₀ init D R)
    (hcons : ∀ w ∈ consumedWires operations, m.get w ≠ none) {stored : List WireId}
    (hstored : ∀ w, w ∈ stored ↔ ∃ p ∈ T₀, m.get w = some p) {P : ℕ → ℕ → Prop}
    (hP : ∀ c ∈ D.map Entry.idx, ∀ p, P p c ↔ (p, c) ∈ edgesFrom m 0 operations ∧ p ∉ T₀) :
    StoredFrom stored ((List.range R).map (roundAt scheme operations target D)) ↔
      InTime P (delayAt scheme operations) {c | c ∈ (scheduled operations target D).map Entry.idx}
        (roundOf D) :=
  ⟨h.inTime_of_storedFrom hm hstored hP, h.storedFrom_of_inTime hm hcons hstored hP⟩

end stored

/-! ### The condition for both runs -/

section

variable {producer : PMap WireId ℕ} (b : BuildLog scheme operations producer D₁ D₂ R₁ R₂)
include b

namespace BuildLog

theorem mem_edges_iff {p c : ℕ} : (p, c) ∈ edgesFrom producer 0 operations ↔ Feeds operations p c :=
  mem_edgesFrom_iff_feeds b.isProducerMap

theorem mem_taken_iff {i : ℕ} (hi : i < operations.length) :
    i ∈ taken operations true [] D₁ ↔ ¬ InputDependent operations i :=
  ⟨b.not_inputDependent, b.mem_taken_of_not_inputDependent hi⟩

theorem offlineFeeds_iff : ∀ c ∈ D₁.map Entry.idx, ∀ p, OfflineFeeds operations p c ↔
    (p, c) ∈ edgesFrom producer 0 operations ∧ p ∉ ([] : List ℕ) := by
  intro c hc p
  obtain ⟨e, he, rfl⟩ := List.mem_map.mp hc
  rw [OfflineFeeds, b.mem_edges_iff]
  refine ⟨fun h => ⟨h.1, by simp⟩, fun h => ⟨h.1, ?_⟩⟩
  exact b.not_inputDependent (b.log.offline.ready e he p (b.mem_edges_iff.mpr h.1))

theorem onlineFeeds_iff : ∀ c ∈ D₂.map Entry.idx, ∀ p, OnlineFeeds operations p c ↔
    (p, c) ∈ edgesFrom producer 0 operations ∧ p ∉ taken operations true [] D₁ := by
  intro c _ p
  rw [OnlineFeeds, b.mem_edges_iff]
  refine and_congr_right fun hf => ?_
  rw [b.mem_taken_iff (edgesFrom_lt b.isProducerMap p c (b.mem_edges_iff.mpr hf)).1, not_not]

theorem scheduled_offline : {c | c ∈ (scheduled operations true D₁).map Entry.idx} =
    {c | c < operations.length ∧ ¬ InputDependent operations c} := by
  ext c
  constructor
  · intro hc
    obtain ⟨e, he, rfl⟩ := List.mem_map.mp hc
    exact ⟨b.log.offline.lt e (mem_scheduled.mp he).1, b.not_inputDependent (List.mem_append_left _ hc)⟩
  · rintro ⟨hc, hdep⟩
    simpa [taken] using (b.mem_taken_iff hc).mpr hdep

theorem scheduled_online : {c | c ∈ (scheduled operations false D₂).map Entry.idx} =
    {c | c < operations.length ∧ InputDependent operations c} := by
  ext c
  constructor
  · intro hc
    obtain ⟨e, he, rfl⟩ := List.mem_map.mp hc
    have heD := (mem_scheduled.mp he).1
    have hlt := b.log.online.lt e heD
    refine ⟨hlt, ?_⟩
    by_contra hdep
    exact b.log.online.fresh e heD ((b.mem_taken_iff hlt).mpr hdep)
  · rintro ⟨hc, hdep⟩
    refine (List.mem_append.mp (b.all c hc)).resolve_right fun hT => ?_
    exact (b.mem_taken_iff hc).mp hT hdep

theorem mem_stored_offline (w : WireId) :
    w ∈ producedWires (((List.range R₁).map (roundAt scheme operations true D₁)).flatMap Round.operations) ↔
      ∃ p ∈ taken operations true [] D₁, producer.get w = some p := by
  rw [mem_producedWires_rounds b.isProducerMap]
  constructor
  · rintro ⟨e, he, -, hg⟩
    exact ⟨e.idx, List.mem_append_left _ (List.mem_map_of_mem he), hg⟩
  · rintro ⟨p, hp, hg⟩
    obtain ⟨e, he, rfl⟩ := List.mem_map.mp ((List.mem_append.mp hp).resolve_right (by simp))
    exact ⟨e, he, b.log.offline.round_lt e (mem_scheduled.mp he).1, hg⟩

/-- The offline run is a run of the queue. -/
theorem serviceLog_offline : ServiceLog (OfflineFeeds operations) (delayAt scheme operations) (· < ·)
    {c | c ∈ D₁.map Entry.idx} {c | c ∈ (scheduled operations true D₁).map Entry.idx} (posOf D₁) (roundOf D₁) :=
  b.log.offline.serviceLog b.offlineFeeds_iff fun _ _ _ _ hi hj =>
    getElem?_lt_iff (f := id) (List.pairwise_lt_range.filter _) hi hj

/-- The online run is one that starts in the order in which the inputs were handed over. -/
theorem serviceLog_online : ServiceLog (OnlineFeeds operations) (delayAt scheme operations)
    (fun u v => posOf D₁ u < posOf D₁ v) {c | c ∈ D₂.map Entry.idx}
    {c | c ∈ (scheduled operations false D₂).map Entry.idx} (posOf D₂) (roundOf D₂) :=
  b.log.online.serviceLog b.onlineFeeds_iff fun _ _ _ _ hi hj =>
    getElem?_lt_iff (b.log.offline.pairwise_posOf.filter _) hi hj

theorem storedFrom_offline_iff : StoredFrom [] ((List.range R₁).map (roundAt scheme operations true D₁)) ↔
    InTime (OfflineFeeds operations) (delayAt scheme operations)
      {c | c ∈ (scheduled operations true D₁).map Entry.idx} (roundOf D₁) :=
  b.log.offline.storedFrom_iff b.isProducerMap b.consumed (by simp) b.offlineFeeds_iff

theorem storedFrom_online_iff :
    StoredFrom (producedWires (((List.range R₁).map (roundAt scheme operations true D₁)).flatMap Round.operations))
        ((List.range R₂).map (roundAt scheme operations false D₂)) ↔
      InTime (OnlineFeeds operations) (delayAt scheme operations)
        {c | c ∈ (scheduled operations false D₂).map Entry.idx} (roundOf D₂) :=
  b.log.online.storedFrom_iff b.isProducerMap b.consumed b.mem_stored_offline b.onlineFeeds_iff

/-- A plan stores before use when both of its phases do. -/
theorem storesBeforeUse_planOf : (planOf scheme operations D₁ D₂ R₁ R₂).StoresBeforeUse ↔
    InTime (OfflineFeeds operations) (delayAt scheme operations)
        {c | c ∈ (scheduled operations true D₁).map Entry.idx} (roundOf D₁) ∧
      InTime (OnlineFeeds operations) (delayAt scheme operations)
        {c | c ∈ (scheduled operations false D₂).map Entry.idx} (roundOf D₂) := by
  rw [MpcCircuit.StoresBeforeUse, planOf, StoredFrom.append_iff, List.nil_append, b.storedFrom_offline_iff,
    b.storedFrom_online_iff]

theorem storesBeforeUse_iff :
    (planOf scheme operations D₁ D₂ R₁ R₂).StoresBeforeUse ↔ LastProducerFinishesLast scheme operations := by
  -- The online run starts in the order of service of the offline run, once that is in time.
  have hstart : InTime (OfflineFeeds operations) (delayAt scheme operations)
        {c | c ∈ (scheduled operations true D₁).map Entry.idx} (roundOf D₁) →
      (InTime (OnlineFeeds operations) (delayAt scheme operations)
          {c | c ∈ (scheduled operations false D₂).map Entry.idx} (roundOf D₂) ↔
        LastFinishesLast (OnlineFeeds operations) (delayAt scheme operations)
          (OfflineBefore scheme operations) {c | c ∈ (scheduled operations false D₂).map Entry.idx}) := by
    intro hin
    refine ServiceLog.inTime_iff (b.log.online.serviceLog b.onlineFeeds_iff fun i j u v hi hj => ?_)
    have hmem : ∀ {k u : ℕ}, (handedOver operations D₁)[k]? = some u → u ∈ D₁.map Entry.idx :=
      fun hk => List.mem_of_mem_filter (List.mem_of_getElem? hk)
    rw [OfflineBefore, b.serviceLog_offline.servedBefore_iff hin (hmem hi) (hmem hj)]
    exact getElem?_lt_iff (b.log.offline.pairwise_posOf.filter _) hi hj
  rw [b.storesBeforeUse_planOf]
  constructor
  · rintro ⟨h1, h2⟩
    have h3 := b.serviceLog_offline.inTime_iff.mp h1
    have h4 := (hstart h1).mp h2
    rw [b.scheduled_offline] at h3
    rw [b.scheduled_online] at h4
    exact ⟨h3, h4⟩
  · rintro ⟨h3, h4⟩
    rw [← b.scheduled_offline] at h3
    rw [← b.scheduled_online] at h4
    have h1 := b.serviceLog_offline.inTime_iff.mpr h3
    exact ⟨h1, (hstart h1).mpr h4⟩

end BuildLog

end

/-- **Schedule validity.** -/
theorem MpcCircuit.validSchedule_iff {circuit : MpcCircuit S Op}
    (h : MpcCircuit.new scheme operations = .ok circuit) :
    circuit.ValidSchedule ↔ LastProducerFinishesLast scheme operations := by
  have hu := MpcCircuit.uniqueProducers_of_new h
  obtain ⟨producer, D₁, D₂, R₁, R₂, rfl, -, b⟩ := MpcCircuit.new_ok h
  exact hu.valid_iff_stored.trans b.storesBeforeUse_iff

theorem MpcCircuit.validSchedule_iff_sum :
    sumCircuit.ValidSchedule ↔ LastProducerFinishesLast sumCircuit.scheme sumOperations :=
  MpcCircuit.validSchedule_iff new_sumOperations

/-- A wire is revealed while a local operation is still to be served, and both results are added. -/
def overtakenOperations : List AdditiveOperation :=
  [.genRandom ⟨0⟩, .reveal ⟨0⟩ ⟨1⟩, .add ⟨0⟩ ⟨0⟩ ⟨2⟩, .add ⟨1⟩ ⟨2⟩ ⟨3⟩]

/-- The plan for them: one offline round, with the second addition beside the opening it needs. -/
def overtakenCircuit : MpcCircuit (AdditiveScheme 100) AdditiveOperation :=
  ⟨⟨⟩, [⟨[.genRandom ⟨0⟩, .add ⟨0⟩ ⟨0⟩ ⟨2⟩, .add ⟨1⟩ ⟨2⟩ ⟨3⟩], [.reveal ⟨0⟩ ⟨1⟩]⟩], []⟩

/-- **A schedule that is not valid.** -/
theorem MpcCircuit.new_overtaken :
    MpcCircuit.new (S := AdditiveScheme 100) ⟨⟩ overtakenOperations = .ok overtakenCircuit ∧
      ¬ overtakenCircuit.ValidSchedule := by
  refine ⟨by decide, fun h => absurd h.stored (by decide)⟩

end MpcCore

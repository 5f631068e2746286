import Mathlib.Order.ConditionallyCompleteLattice.Basic
import Mathlib.Order.Nat
import Mathlib.Order.Lattice.Nat
import Mathlib.Tactic.Common

/-! # First come, first served, over a dependency graph

Nodes wait for the nodes that feed them, and a queue serves a node once the last of these was
served.  `P p c` says that `p` feeds `c`, `delay p` is the number of rounds `p` takes, and
`first` is the order among the nodes that wait for nothing.

* `level`: the earliest round a node can be in, the greatest delay along a path into it.
* `ServedBefore`: the order in which the queue serves, as far as the graph determines it.
* `ServiceLog`: what a run of the queue records, a position and a round for every node.
* `ServiceLog.round_le_level`, `ServiceLog.isLevelAt`: no node is served after its level.
* `ServiceLog.inTime_iff`: no node comes before something that feeds it has finished, exactly
  when the producer served last is, for every node, one that finishes last. -/

namespace ServiceOrder

variable (P : ℕ → ℕ → Prop) (delay : ℕ → ℕ) (first : ℕ → ℕ → Prop)

/-- Some path into the node has this total delay. -/
inductive PathWeight : ℕ → ℕ → Prop where
  | nil (c : ℕ) : PathWeight c 0
  | snoc {p c w : ℕ} : PathWeight p w → P p c → PathWeight c (w + delay p)

/-- The greatest delay along a path into the node. -/
noncomputable def level (c : ℕ) : ℕ := sSup {w | PathWeight P delay c w}

/-- The node waits for nothing. -/
def IsSource (c : ℕ) : Prop := ∀ p, ¬ P p c

/-- The node is in the queue before the other.  Sources come first, in their own order.  The
other nodes come in the order of the rounds they are released for; those of one round in the
order of the nodes that release them; and those released by one node in numeric order.  A node is
released by the one that feeds it and is served after all others that do. -/
inductive ServedBefore : ℕ → ℕ → Prop where
  | first {a b : ℕ} : IsSource P a → IsSource P b → first a b → ServedBefore a b
  | start {a b : ℕ} : IsSource P a → ¬ IsSource P b → ServedBefore a b
  | level {a b t u : ℕ} : P t a → (∀ p, P p a → p ≠ t → ServedBefore p t) →
      P u b → (∀ p, P p b → p ≠ u → ServedBefore p u) →
      level P delay t + delay t < level P delay u + delay u → ServedBefore a b
  | release {a b t u : ℕ} : P t a → (∀ p, P p a → p ≠ t → ServedBefore p t) →
      P u b → (∀ p, P p b → p ≠ u → ServedBefore p u) →
      level P delay t + delay t = level P delay u + delay u → ServedBefore t u → ServedBefore a b
  | index {a b t : ℕ} : P t a → (∀ p, P p a → p ≠ t → ServedBefore p t) →
      P t b → (∀ p, P p b → p ≠ t → ServedBefore p t) → a < b → ServedBefore a b

/-- `t` feeds `c` and is served after everything else that does. -/
def LastServed (t c : ℕ) : Prop := P t c ∧ ∀ p, P p c → p ≠ t → ServedBefore P delay first p t

/-- For every node of `Vs`, what feeds it and is served last is also what finishes last. -/
def LastFinishesLast (Vs : Set ℕ) : Prop :=
  ∀ c ∈ Vs, ∀ t, LastServed P delay first t c → ∀ p, P p c →
    level P delay p + delay p ≤ level P delay t + delay t

/-- A run of the queue over the nodes `V`, of which those in `Vs` feed others. -/
structure ServiceLog (V Vs : Set ℕ) (pos round : ℕ → ℕ) : Prop where
  sub : ∀ c ∈ Vs, c ∈ V
  feeds : ∀ c ∈ V, ∀ p, P p c → p ∈ Vs
  pos_inj : ∀ a ∈ V, ∀ b ∈ V, pos a = pos b → a = b
  mono : ∀ a ∈ V, ∀ b ∈ V, pos a < pos b → round a ≤ round b
  source : ∀ c ∈ V, IsSource P c → round c = 0
  released : ∀ c ∈ V, ¬ IsSource P c → ∃ t, P t c ∧ pos t < pos c ∧ (∀ p, P p c → pos p ≤ pos t) ∧
    round c = round t + delay t
  first_iff : ∀ a ∈ V, ∀ b ∈ V, IsSource P a → IsSource P b → (first a b ↔ pos a < pos b)
  source_lt : ∀ a ∈ V, ∀ b ∈ V, IsSource P a → ¬ IsSource P b → pos a < pos b
  release_lt : ∀ a ∈ V, ∀ b ∈ V, ∀ t u, P t a → (∀ p, P p a → pos p ≤ pos t) →
    P u b → (∀ p, P p b → pos p ≤ pos u) → pos a < pos b → round a = round b →
    pos t < pos u ∨ t = u ∧ a < b

/-- What feeds a node of `Vs` finishes before the round the node is in. -/
def InTime (Vs : Set ℕ) (round : ℕ → ℕ) : Prop := ∀ c ∈ Vs, ∀ p, P p c → round p + delay p ≤ round c

/-- The level at a node follows from those of the nodes that feed it. -/
def IsLevelAt (lvl : ℕ → ℕ) (c : ℕ) : Prop :=
  (∀ p, P p c → lvl p + delay p ≤ lvl c) ∧
    (IsSource P c ∧ lvl c = 0 ∨ ∃ p, P p c ∧ lvl c = lvl p + delay p)

variable {P delay first}

theorem level_eq {c n : ℕ} (h : PathWeight P delay c n) (hle : ∀ w, PathWeight P delay c w → w ≤ n) :
    level P delay c = n :=
  IsGreatest.csSup_eq ⟨h, hle⟩

theorem PathWeight.cases_last {c w : ℕ} (h : PathWeight P delay c w) :
    w = 0 ∨ ∃ p v, PathWeight P delay p v ∧ P p c ∧ w = v + delay p := by
  cases h with
  | nil => exact .inl rfl
  | @snoc p _ v hv hp => exact .inr ⟨p, v, hv, hp, rfl⟩

namespace ServiceLog

variable {V Vs : Set ℕ} {pos round : ℕ → ℕ} (log : ServiceLog P delay first V Vs pos round)
include log

theorem pos_lt {p c : ℕ} (hc : c ∈ V) (hp : P p c) : pos p < pos c := by
  obtain ⟨t, -, h1, h2, -⟩ := log.released c hc fun h => h p hp
  exact (h2 p hp).trans_lt h1

theorem pathWeight_round : ∀ c ∈ V, PathWeight P delay c (round c) := by
  have hmain : ∀ n, ∀ c ∈ V, pos c = n → PathWeight P delay c (round c) := by
    intro n
    induction n using Nat.strong_induction_on with
    | _ n ih =>
        intro c hc hn
        by_cases hsrc : IsSource P c
        · rw [log.source c hc hsrc]
          exact .nil c
        · obtain ⟨t, ht, hlt, -, hr⟩ := log.released c hc hsrc
          rw [hr]
          exact .snoc (ih (pos t) (hn ▸ hlt) t (log.sub t (log.feeds c hc t ht)) rfl) ht
  exact fun c hc => hmain (pos c) c hc rfl

theorem pathWeight_le (hdelay : ∀ p, delay p ≤ 1) {c w : ℕ} (h : PathWeight P delay c w) : c ∈ V → w ≤ pos c := by
  induction h with
  | nil => exact fun _ => Nat.zero_le _
  | @snoc p c w _ he ih =>
      intro hc
      have hlt := log.pos_lt hc he
      have hp := ih (log.sub p (log.feeds c hc p he))
      have hd := hdelay p
      omega

theorem isGreatest_level (hdelay : ∀ p, delay p ≤ 1) {c : ℕ} (hc : c ∈ V) :
    IsGreatest {w | PathWeight P delay c w} (level P delay c) := by
  have hbdd : BddAbove {w | PathWeight P delay c w} := ⟨pos c, fun w hw => log.pathWeight_le hdelay hw hc⟩
  exact ⟨Nat.sSup_mem ⟨_, log.pathWeight_round c hc⟩ hbdd, fun w hw => le_csSup hbdd hw⟩

/-- **No node is served after its level.** -/
theorem round_le_level (hdelay : ∀ p, delay p ≤ 1) {c : ℕ} (hc : c ∈ V) : round c ≤ level P delay c :=
  (log.isGreatest_level hdelay hc).2 (log.pathWeight_round c hc)

/-- The level of a node that was served, from the levels of those that feed it. -/
theorem isLevelAt (hdelay : ∀ p, delay p ≤ 1) {c : ℕ} (hc : c ∈ V) : IsLevelAt P delay (level P delay) c := by
  obtain ⟨hpath, hmax⟩ := log.isGreatest_level hdelay hc
  have hfeeds : ∀ p, P p c → IsGreatest {w | PathWeight P delay p w} (level P delay p) := fun p hp =>
    log.isGreatest_level hdelay (log.sub p (log.feeds c hc p hp))
  have hle : ∀ p, P p c → level P delay p + delay p ≤ level P delay c := fun p hp =>
    hmax (.snoc (hfeeds p hp).1 hp)
  refine ⟨hle, ?_⟩
  by_cases hsrc : IsSource P c
  · refine .inl ⟨hsrc, le_antisymm ?_ (Nat.zero_le _)⟩
    obtain h0 | ⟨p, -, -, hp, -⟩ := hpath.cases_last
    · exact h0.le
    · exact absurd hp (hsrc p)
  · right
    obtain h0 | ⟨p, w, hw, hp, heq⟩ := hpath.cases_last
    · obtain ⟨t, ht, -⟩ := log.released c hc hsrc
      have := hle t ht
      exact ⟨t, ht, by omega⟩
    · have := (hfeeds p hp).2 hw
      have := hle p hp
      exact ⟨p, hp, by omega⟩

theorem level_eq_round {k : ℕ} (hin : ∀ c ∈ Vs, pos c < k → ∀ p, P p c → round p + delay p ≤ round c) :
    ∀ c ∈ Vs, pos c < k → level P delay c = round c := by
  have hmain : ∀ n, ∀ c ∈ Vs, pos c = n → pos c < k →
      PathWeight P delay c (round c) ∧ ∀ w, PathWeight P delay c w → w ≤ round c := by
    intro n
    induction n using Nat.strong_induction_on with
    | _ n ih =>
        intro c hc hn hk
        have hbefore : ∀ p, P p c → pos p < pos c := fun p hp => log.pos_lt (log.sub c hc) hp
        have hfeeds : ∀ p, P p c → PathWeight P delay p (round p) ∧
            ∀ w, PathWeight P delay p w → w ≤ round p := fun p hp =>
          ih (pos p) (hn ▸ hbefore p hp) p (log.feeds c (log.sub c hc) p hp) rfl ((hbefore p hp).trans hk)
        constructor
        · by_cases hsrc : IsSource P c
          · rw [log.source c (log.sub c hc) hsrc]
            exact .nil c
          · obtain ⟨t, ht, -, -, hr⟩ := log.released c (log.sub c hc) hsrc
            rw [hr]
            exact .snoc (hfeeds t ht).1 ht
        · intro w hw
          cases hw with
          | nil => exact Nat.zero_le _
          | snoc hp he => exact (Nat.add_le_add_right ((hfeeds _ he).2 _ hp) _).trans (hin c hc hk _ he)
  intro c hc hk
  obtain ⟨h1, h2⟩ := hmain (pos c) c hc rfl hk
  exact level_eq h1 h2

theorem servedBefore_of_lt {k : ℕ}
    (hin : ∀ c ∈ Vs, pos c < k → ∀ p, P p c → round p + delay p ≤ round c) :
    ∀ b ∈ V, pos b ≤ k → ∀ a ∈ V, pos a < pos b → ServedBefore P delay first a b := by
  have hlevel := log.level_eq_round hin
  have hmain : ∀ n, ∀ b ∈ V, pos b = n → pos b ≤ k → ∀ a ∈ V, pos a < pos b →
      ServedBefore P delay first a b := by
    intro n
    induction n using Nat.strong_induction_on with
    | _ n ih =>
        intro b hb hn hk a ha hab
        -- Whoever is recorded as the last to feed a node up to `b` is served last.
        have hlast : ∀ c ∈ V, pos c ≤ pos b → ∀ t, P t c → pos t < pos c → (∀ p, P p c → pos p ≤ pos t) →
            ∀ p, P p c → p ≠ t → ServedBefore P delay first p t := by
          intro c hc hcb t ht htc hmax p hp hpt
          have htV := log.sub t (log.feeds c hc t ht)
          have hpV := log.sub p (log.feeds c hc p hp)
          have hlt : pos p < pos t := lt_of_le_of_ne (hmax p hp) fun h => hpt (log.pos_inj p hpV t htV h)
          exact ih (pos t) (by omega) t htV rfl (by omega) p hpV hlt
        by_cases hsa : IsSource P a
        · by_cases hsb : IsSource P b
          · exact .first hsa hsb ((log.first_iff a ha b hb hsa hsb).mpr hab)
          · exact .start hsa hsb
        · have hsb : ¬ IsSource P b := fun hsb => by
            have := log.source_lt b hb a ha hsb hsa
            omega
          obtain ⟨t, ht, hta, htmax, hra⟩ := log.released a ha hsa
          obtain ⟨u, hu, hub, humax, hrb⟩ := log.released b hb hsb
          have h1 := hlast a ha hab.le t ht hta htmax
          have h2 := hlast b hb le_rfl u hu hub humax
          have htVs := log.feeds a ha t ht
          have huVs := log.feeds b hb u hu
          have hlt : level P delay t = round t := hlevel t htVs (by omega)
          have hlu : level P delay u = round u := hlevel u huVs (by omega)
          obtain hround | hround := (log.mono a ha b hb hab).lt_or_eq
          · exact .level ht h1 hu h2 (by omega)
          · obtain htu | ⟨rfl, hlt'⟩ := log.release_lt a ha b hb t u ht htmax hu humax hab hround
            · exact .release ht h1 hu h2 (by omega)
                (ih (pos u) (by omega) u (log.sub u huVs) rfl (by omega) t (log.sub t htVs) htu)
            · exact .index ht h1 hu h2 hlt'
  exact fun b hb => hmain (pos b) b hb rfl

/-- The producer a node is released by is the one served last. -/
theorem lastServed_of_max {k : ℕ}
    (hin : ∀ c ∈ Vs, pos c < k → ∀ p, P p c → round p + delay p ≤ round c)
    {c t : ℕ} (hc : c ∈ V) (ht : P t c) (hk : pos t ≤ k) (hmax : ∀ p, P p c → pos p ≤ pos t) :
    LastServed P delay first t c := by
  refine ⟨ht, fun p hp hpt => ?_⟩
  have htV := log.sub t (log.feeds c hc t ht)
  have hpV := log.sub p (log.feeds c hc p hp)
  exact log.servedBefore_of_lt hin t htV hk p hpV
    (lt_of_le_of_ne (hmax p hp) fun h => hpt (log.pos_inj p hpV t htV h))

theorem level_eq_of_inTime (hin : InTime P delay Vs round) {c : ℕ} (hc : c ∈ Vs) : level P delay c = round c :=
  log.level_eq_round (k := pos c + 1) (fun c hc _ => hin c hc) c hc (Nat.lt_succ_self _)

/-- When everything is in time, a node has the round that the last of those that feed it gives. -/
theorem round_eq_of_max (hin : InTime P delay Vs round) {c t : ℕ} (hc : c ∈ V) (ht : P t c)
    (hmax : ∀ p, P p c → pos p ≤ pos t) : round c = level P delay t + delay t := by
  obtain ⟨u, hu, -, humax, hr⟩ := log.released c hc fun h => h t ht
  have htVs := log.feeds c hc t ht
  have : t = u := log.pos_inj t (log.sub t htVs) u (log.sub u (log.feeds c hc u hu))
    (le_antisymm (humax t ht) (hmax u hu))
  rw [hr, ← this, log.level_eq_of_inTime hin htVs]

theorem lt_of_servedBefore (hin : InTime P delay Vs round) {a b : ℕ}
    (h : ServedBefore P delay first a b) : a ∈ V → b ∈ V → pos a < pos b := by
  -- Who feeds a node and is served last has the greatest position among those that feed it.
  have hmax : ∀ c ∈ V, ∀ t, P t c →
      (∀ p, P p c → p ≠ t → p ∈ V → t ∈ V → pos p < pos t) →
      ∀ p, P p c → pos p ≤ pos t := by
    intro c hc t ht hlast p hp
    by_cases hpt : p = t
    · rw [hpt]
    · exact (hlast p hp hpt (log.sub p (log.feeds c hc p hp)) (log.sub t (log.feeds c hc t ht))).le
  induction h with
  | first hsa hsb hf => exact fun ha hb => (log.first_iff _ ha _ hb hsa hsb).mp hf
  | start hsa hsb => exact fun ha hb => log.source_lt _ ha _ hb hsa hsb
  | @level a b t u ht _ hu _ hlt iht ihu =>
      intro ha hb
      have h1 := log.round_eq_of_max hin ha ht (hmax a ha t ht iht)
      have h2 := log.round_eq_of_max hin hb hu (hmax b hb u hu ihu)
      by_contra hge
      obtain h | h := Nat.lt_or_eq_of_le (not_lt.mp hge)
      · have := log.mono b hb a ha h
        omega
      · obtain rfl := log.pos_inj b hb a ha h
        omega
  | @release a b t u ht _ hu _ heq _ iht ihu ihtu =>
      intro ha hb
      have hm1 := hmax a ha t ht iht
      have hm2 := hmax b hb u hu ihu
      have h1 := log.round_eq_of_max hin ha ht hm1
      have h2 := log.round_eq_of_max hin hb hu hm2
      have htu := ihtu (log.sub t (log.feeds a ha t ht)) (log.sub u (log.feeds b hb u hu))
      by_contra hge
      obtain h | h := Nat.lt_or_eq_of_le (not_lt.mp hge)
      · obtain h' | ⟨rfl, -⟩ := log.release_lt b hb a ha u t hu hm2 ht hm1 h (by omega)
        · omega
        · exact absurd htu (lt_irrefl _)
      · obtain rfl := log.pos_inj b hb a ha h
        have := hm1 u hu
        omega
  | @index a b t hta _ htb _ hab iht ihu =>
      intro ha hb
      have hm1 := hmax a ha t hta iht
      have hm2 := hmax b hb t htb ihu
      have h1 := log.round_eq_of_max hin ha hta hm1
      have h2 := log.round_eq_of_max hin hb htb hm2
      by_contra hge
      obtain h | h := Nat.lt_or_eq_of_le (not_lt.mp hge)
      · obtain h' | ⟨-, h'⟩ := log.release_lt b hb a ha t t htb hm2 hta hm1 h (by omega)
        · exact absurd h' (lt_irrefl _)
        · omega
      · obtain rfl := log.pos_inj b hb a ha h
        exact absurd hab (lt_irrefl _)

theorem servedBefore_iff (hin : InTime P delay Vs round) {a b : ℕ} (ha : a ∈ V) (hb : b ∈ V) :
    ServedBefore P delay first a b ↔ pos a < pos b :=
  ⟨fun h => log.lt_of_servedBefore hin h ha hb,
    fun h => log.servedBefore_of_lt (k := pos b) (fun c hc _ => hin c hc) b hb le_rfl a ha h⟩

/-- **When a queue serves in time.** -/
theorem inTime_iff : InTime P delay Vs round ↔ LastFinishesLast P delay first Vs := by
  constructor
  · intro hin c hc t hlast p hp
    have hcV := log.sub c hc
    obtain ⟨u, hu, -, humax, hr⟩ := log.released c hcV fun h => h t hlast.1
    have htV := log.feeds c hcV t hlast.1
    have huV := log.feeds c hcV u hu
    have hut : u = t := by
      by_contra hne
      have h1 := log.lt_of_servedBefore hin (hlast.2 u hu hne) (log.sub u huV) (log.sub t htV)
      have h2 := humax t hlast.1
      omega
    subst hut
    rw [log.level_eq_of_inTime hin (log.feeds c hcV p hp), log.level_eq_of_inTime hin huV, ← hr]
    exact hin c hc p hp
  · intro hcond
    have hmain : ∀ n, ∀ c ∈ Vs, pos c = n → ∀ p, P p c → round p + delay p ≤ round c := by
      intro n
      induction n using Nat.strong_induction_on with
      | _ n ih =>
          intro c hc hn p hp
          have hcV := log.sub c hc
          obtain ⟨t, ht, htc, hmax, hr⟩ := log.released c hcV fun h => h p hp
          have hin : ∀ c ∈ Vs, pos c < n → ∀ p, P p c → round p + delay p ≤ round c :=
            fun c hc hlt => ih (pos c) hlt c hc rfl
          have hlast : LastServed P delay first t c := log.lastServed_of_max hin hcV ht (by omega) hmax
          have hle := hcond c hc t hlast p hp
          have hp' := hmax p hp
          rw [log.level_eq_round hin p (log.feeds c hcV p hp) (by omega),
            log.level_eq_round hin t (log.feeds c hcV t ht) (by omega)] at hle
          omega
    exact fun c hc => hmain (pos c) c hc rfl

end ServiceLog

end ServiceOrder

import MpcCore.Lib.JoinAll
import MpcCore.Mesh
import MpcCore.StreamIntegrity
import Mathlib.Data.List.Dedup

/-! # The channels of a mesh network

`MeshNetwork` with its table of channels, and its two bulk methods as the source computes them: the
channels of the groups are moved into tasks one after the other, the tasks are joined, and the
channels they hand back return to the table.

* The groups of `into_group_map` come in any order: `order` lists the peers that the requests name.
* The tasks run side by side, each on its own channel, so each is given by how it ends
  (`TryJoinAll`).  A channel that a task holds when the call returns an error is dropped with it.
* `toStdvec` and `fromBytes` stand for `postcard`.
* `BulkTransfer.ends` says how a bulk method can end; `BulkTransfer.of_done`: when every task succeeds,
  the order decides nothing but the order in which the channels return.
* `sendObjectsMany_ok`: what a send that succeeds has sent. -/

namespace MpcCore

/-- `MeshNetwork`. -/
structure MeshNetwork (σ : Type) where
  myId : ℕ
  nParties : ℕ
  channels : List (Option (SecureStream σ))

/-- What a task hands back: the bytes it transferred, its peer with the channel, and a value. -/
structure Transferred (σ α : Type) where
  len : ℕ
  peer : ℕ
  channel : SecureStream σ
  value : α

namespace MeshNetwork

variable {σ α β T : Type}

/-- The channel to a peer, where there is an open one. -/
def channel (net : MeshNetwork σ) (peer : ℕ) : Option (SecureStream σ) := net.channels[peer]?.join

/-- `self.channels.get_mut(peer).and_then(Option::take)` -/
def takeChannel (peer : ℕ) : Act (MeshNetwork σ) String (Option (SecureStream σ)) := fun net =>
  (.ok (net.channel peer), { net with channels := net.channels.set peer none })

/-- `assert!(self.channels[peer].is_none()); self.channels[peer] = Some(channel);` -/
def putBack (peer : ℕ) (channel : SecureStream σ) : Act (MeshNetwork σ) String Unit := fun net =>
  match net.channels[peer]? with
  | some none => (.ok (), { net with channels := net.channels.set peer (some channel) })
  | _ => (.panic, net)

/-! ### Tasks -/

/-- The loop over the groups: it takes the channel of each peer and makes its task, and stops at the
first peer for which one of the two fails. -/
def startTasks (start : ℕ → SecureStream σ → Except String (Outcome String (Transferred σ α))) :
    List ℕ → List (Outcome String (Transferred σ α)) →
      Act (MeshNetwork σ) String (List (Outcome String (Transferred σ α)))
  | [], tasks => .ret (.ok tasks)
  | peer :: peers, tasks =>
      (takeChannel peer).bind fun
        | none => .ret (.err (channelError peer))
        | some channel =>
            match start peer channel with
            | .ok task => startTasks start peers (tasks ++ [task])
            | .error e => .ret (.err e)

/-- A bulk method: the loop over the groups, the join of the tasks, and what is done with the
channels and values they hand back. -/
inductive BulkTransfer (start : ℕ → SecureStream σ → Except String (Outcome String (Transferred σ α)))
    (finish : List (Transferred σ α) → Act (MeshNetwork σ) String β) (order : List ℕ) (net : MeshNetwork σ) :
    Outcome String β → MeshNetwork σ → Prop where
  | refused {e : String} {net' : MeshNetwork σ} : startTasks start order [] net = (.err e, net') →
      BulkTransfer start finish order net (.err e) net'
  | joined {tasks : List (Outcome String (Transferred σ α))} {net₁ net' : MeshNetwork σ}
      {done : Outcome String (List (Transferred σ α))} {r : Outcome String β} :
      startTasks start order [] net = (.ok tasks, net₁) → TryJoinAll tasks done →
      ((Act.ret done).bind finish) net₁ = (r, net') → BulkTransfer start finish order net r net'

/-- The order in which `into_group_map` yields the peers that the requests name. -/
def IsGroupOrder (named order : List ℕ) : Prop := order.Perm named.dedup

section methods

variable [ByteStream σ]

/-! ### Receiving -/

/-- The task of one peer in `recv_objects_many`. -/
def recvTask (fromBytes : List UInt8 → Except String (List T)) (counts : List (ℕ × Option ℕ+)) (peer : ℕ)
    (channel : SecureStream σ) : Outcome String (Transferred σ (List (ℕ × List T))) :=
  let (received, channel) := channel.recv
  received.bind fun (data, receivedLen) =>
    match fromBytes data with
    | .error e => .err s!"Deserialization error: {e}"
    | .ok objects => (splitObjects counts objects).bind fun objectsList => .ok ⟨receivedLen, peer, channel, objectsList⟩

/-- The body of the loop over the groups in `recv_objects_many`. -/
def startRecv (fromBytes : List UInt8 → Except String (List T)) (requests : List ReceiveRequest) (peer : ℕ)
    (channel : SecureStream σ) : Except String (Outcome String (Transferred σ (List (ℕ × List T)))) :=
  .ok (recvTask fromBytes (requestsFrom requests peer) peer channel)

/-- The loop over the results of the tasks in `recv_objects_many`. -/
def collectResults : List (Transferred σ (List (ℕ × List T))) → ℕ → List (Option (List T)) →
    Act (MeshNetwork σ) String (List (Option (List T)) × ℕ)
  | [], receivedLen, results => .ret (.ok (results, receivedLen))
  | d :: ds, receivedLen, results =>
      (putBack d.peer d.channel).bind fun _ =>
        (Act.ret (placeObjects d.value results)).bind fun results => collectResults ds (receivedLen + d.len) results

/-- What `recv_objects_many` does after the join. -/
def finishRecv (totalRequestsLen : ℕ) (done : List (Transferred σ (List (ℕ × List T)))) :
    Act (MeshNetwork σ) String (List (List T) × ℕ) :=
  (collectResults done 0 (List.replicate totalRequestsLen none)).bind fun (results, receivedLen) =>
    (Act.ret (allPlaced results)).bind fun all => .ret (.ok (all, receivedLen))

/-- `recv_objects_many`, with the groups in the given order. -/
def RecvObjectsMany (fromBytes : List UInt8 → Except String (List T)) (requests : List ReceiveRequest)
    (order : List ℕ) : MeshNetwork σ → Outcome String (List (List T) × ℕ) → MeshNetwork σ → Prop :=
  BulkTransfer (startRecv fromBytes requests) (finishRecv requests.length) order

/-! ### Sending -/

/-- The task of one peer in `send_objects_many`. -/
def sendTask (bytes : List UInt8) (peer : ℕ) (channel : SecureStream σ) : Outcome String (Transferred σ Unit) :=
  let (sent, channel) := channel.send bytes
  sent.bind fun len => .ok ⟨len, peer, channel, ()⟩

/-- The body of the loop over the groups in `send_objects_many`: the serialised data of the group. -/
def startSend (toStdvec : List T → Except String (List UInt8)) (requests : List (SendRequest T)) (peer : ℕ)
    (channel : SecureStream σ) : Except String (Outcome String (Transferred σ Unit)) :=
  match toStdvec (dataTo requests peer) with
  | .error e => .error s!"Serialization error: {e}"
  | .ok bytes => .ok (sendTask bytes peer channel)

/-- What `send_objects_many` does after the join. -/
def finishSend : List (Transferred σ Unit) → ℕ → Act (MeshNetwork σ) String ℕ
  | [], sendLen => .ret (.ok sendLen)
  | d :: ds, sendLen => (putBack d.peer d.channel).bind fun _ => finishSend ds (sendLen + d.len)

/-- `send_objects_many`, with the groups in the given order. -/
def SendObjectsMany (toStdvec : List T → Except String (List UInt8)) (requests : List (SendRequest T))
    (order : List ℕ) : MeshNetwork σ → Outcome String ℕ → MeshNetwork σ → Prop :=
  BulkTransfer (startSend toStdvec requests) (fun done => finishSend done 0) order

end methods

/-! ### The table of channels -/

section table

variable {net net' : MeshNetwork σ} {p q : ℕ}

/-- The table without the channels of some peers. -/
def without (net : MeshNetwork σ) (peers : List ℕ) : MeshNetwork σ :=
  { net with channels := peers.foldl (fun channels peer => channels.set peer none) net.channels }

/-- The table with the channels that tasks hand back. -/
def restore (net : MeshNetwork σ) (done : List (Transferred σ α)) : MeshNetwork σ :=
  { net with channels := done.foldl (fun channels d => channels.set d.peer (some d.channel)) net.channels }

theorem channel_set_ne (channels : List (Option (SecureStream σ))) (c : Option (SecureStream σ)) (hne : q ≠ p) :
    ({ net with channels := channels.set p c }).channel q = ({ net with channels }).channel q := by
  simp only [channel, List.getElem?_set_ne hne.symm]

theorem channel_set_none : ({ net with channels := net.channels.set p none }).channel p = none := by
  simp only [channel, List.getElem?_set_self']
  cases net.channels[p]? <;> rfl

theorem lt_of_channel {c : SecureStream σ} (h : net.channel p = some c) : p < net.channels.length := by
  by_contra hge
  rw [channel, List.getElem?_eq_none (not_lt.mp hge)] at h
  cases h

/-- A table is its length and its channels. -/
theorem ext_channel (hid : net.myId = net'.myId) (hn : net.nParties = net'.nParties)
    (hlen : net.channels.length = net'.channels.length) (h : ∀ p, net.channel p = net'.channel p) : net = net' := by
  have hchannels : net.channels = net'.channels := by
    apply List.ext_getElem hlen
    intro p hp hp'
    have := h p
    rwa [channel, channel, List.getElem?_eq_getElem hp, List.getElem?_eq_getElem hp', Option.join_some,
      Option.join_some] at this
  cases net
  cases net'
  simp_all

theorem without_cons (net : MeshNetwork σ) (p : ℕ) (peers : List ℕ) :
    net.without (p :: peers) = ({ net with channels := net.channels.set p none }).without peers := rfl

theorem without_length : ∀ (peers : List ℕ) (net : MeshNetwork σ),
    (net.without peers).channels.length = net.channels.length
  | [], _ => rfl
  | p :: peers, net => by rw [without_cons, without_length peers, List.length_set]

theorem channel_without : ∀ (peers : List ℕ) (net : MeshNetwork σ),
    (net.without peers).channel q = if q ∈ peers then none else net.channel q
  | [], _ => rfl
  | p :: peers, net => by
      rw [without_cons, channel_without peers]
      by_cases hq : q = p
      · subst hq
        simp [channel_set_none]
      · rw [channel_set_ne _ _ hq]
        simp [hq]

theorem restore_cons (net : MeshNetwork σ) (d : Transferred σ α) (done : List (Transferred σ α)) :
    net.restore (d :: done) = ({ net with channels := net.channels.set d.peer (some d.channel) }).restore done := rfl

theorem restore_length : ∀ (done : List (Transferred σ α)) (net : MeshNetwork σ),
    (net.restore done).channels.length = net.channels.length
  | [], _ => rfl
  | d :: done, net => by rw [restore_cons, restore_length done, List.length_set]

theorem channel_restore_ne : ∀ (done : List (Transferred σ α)) (net : MeshNetwork σ),
    q ∉ done.map Transferred.peer → (net.restore done).channel q = net.channel q
  | [], _, _ => rfl
  | d :: done, net, h => by
      rw [List.map_cons, List.mem_cons, not_or] at h
      rw [restore_cons, channel_restore_ne done _ h.2, channel_set_ne _ _ h.1]

theorem channel_restore : ∀ (done : List (Transferred σ α)) (net : MeshNetwork σ),
    (done.map Transferred.peer).Nodup → (∀ d ∈ done, d.peer < net.channels.length) →
    ∀ d ∈ done, (net.restore done).channel d.peer = some d.channel
  | [], _, _, _ => by simp
  | d :: done, net, hnd, hlt => by
      rw [List.map_cons, List.nodup_cons] at hnd
      intro d' hd'
      rw [restore_cons]
      obtain rfl | hd' := List.mem_cons.mp hd'
      · rw [channel_restore_ne done _ hnd.1, channel, List.getElem?_set_self (hlt _ List.mem_cons_self)]
        rfl
      · exact channel_restore done _ hnd.2 (fun x hx => by
          rw [List.length_set]
          exact hlt x (List.mem_cons_of_mem _ hx)) d' hd'

end table

/-! ### How a bulk method ends -/

section transfer

variable {start : ℕ → SecureStream σ → Except String (Outcome String (Transferred σ α))}
  {finish : List (Transferred σ α) → Act (MeshNetwork σ) String β} {order : List ℕ} {net net' : MeshNetwork σ}

/-- The task of a peer, where its channel is open and the task can be made. -/
def task (start : ℕ → SecureStream σ → Except String (Outcome String (Transferred σ α))) (net : MeshNetwork σ)
    (p : ℕ) : Option (Outcome String (Transferred σ α)) := (net.channel p).bind fun c => (start p c).toOption

/-- What the task of a peer hands back, where it succeeds. -/
def done (start : ℕ → SecureStream σ → Except String (Outcome String (Transferred σ α))) (net : MeshNetwork σ)
    (p : ℕ) : Option (Transferred σ α) :=
  match net.task start p with
  | some (.ok d) => some d
  | _ => none

theorem task_eq_some {p : ℕ} {t : Outcome String (Transferred σ α)} :
    net.task start p = some t ↔ ∃ c, net.channel p = some c ∧ start p c = .ok t := by
  rw [task, Option.bind_eq_some_iff]
  have htoOption : ∀ x : Except String (Outcome String (Transferred σ α)), x.toOption = some t ↔ x = .ok t := by
    intro x
    cases x <;> simp [Except.toOption]
  simp only [htoOption]

theorem done_eq_some {p : ℕ} {d : Transferred σ α} : net.done start p = some d ↔ net.task start p = some (.ok d) := by
  unfold done
  rcases net.task start p with _ | (_ | _ | _ | _) <;> simp

theorem task_congr {p : ℕ} (h : net.channel p = net'.channel p) : net.task start p = net'.task start p := by
  rw [task, task, h]

theorem startTasks_cons_some {p : ℕ} {t : Outcome String (Transferred σ α)} (h : net.task start p = some t)
    (order : List ℕ) (tasks : List (Outcome String (Transferred σ α))) :
    startTasks start (p :: order) tasks net =
      startTasks start order (tasks ++ [t]) { net with channels := net.channels.set p none } := by
  obtain ⟨c, hc, hstart⟩ := task_eq_some.mp h
  simp only [startTasks, takeChannel, Act.bind, hc, hstart]

/-- The first peer without a task ends the loop, and its channel is gone too. -/
theorem startTasks_cons_none {p : ℕ} (h : net.task start p = none) (order : List ℕ)
    (tasks : List (Outcome String (Transferred σ α))) :
    ∃ e, startTasks start (p :: order) tasks net =
      (.err e, { net with channels := net.channels.set p none }) := by
  cases hc : net.channel p with
  | none =>
      refine ⟨channelError p, ?_⟩
      simp only [startTasks, takeChannel, Act.bind, hc]
      rfl
  | some c =>
      cases hstart : start p c with
      | error e =>
          refine ⟨e, ?_⟩
          simp only [startTasks, takeChannel, Act.bind, hc, hstart]
          rfl
      | ok t =>
          have hsome := task_eq_some.mpr ⟨c, hc, hstart⟩
          rw [h] at hsome
          cases hsome

variable (start) in
/-- The loop over the groups makes all tasks, or stops at the first peer without one, whose channel
is gone with those of the peers before. -/
theorem startTasks_cases : ∀ (order : List ℕ) (tasks : List (Outcome String (Transferred σ α)))
    (net : MeshNetwork σ), order.Nodup →
    ((∀ p ∈ order, (net.task start p).isSome = true) ∧
      startTasks start order tasks net = (.ok (tasks ++ order.filterMap (net.task start)), net.without order)) ∨
    ∃ before bad after e, order = before ++ bad :: after ∧ (∀ p ∈ before, (net.task start p).isSome = true) ∧
      net.task start bad = none ∧ startTasks start order tasks net = (.err e, net.without (before ++ [bad]))
  | [], tasks, net, _ => by
      left
      simp [startTasks, without]
  | p :: order, tasks, net, hnd => by
      obtain ⟨hp, hnd⟩ := List.nodup_cons.mp hnd
      cases ht : net.task start p with
      | none =>
          obtain ⟨e, h⟩ := startTasks_cons_none ht order tasks
          exact .inr ⟨[], p, order, e, rfl, by simp, ht, h⟩
      | some t =>
          have hsome : (net.task start p).isSome = true := by rw [ht]; rfl
          have hother : ∀ q ∈ order,
              ({ net with channels := net.channels.set p none } : MeshNetwork σ).task start q = net.task start q :=
            fun q hq => task_congr (channel_set_ne _ _ fun h => hp (h ▸ hq))
          obtain ⟨hall, h⟩ | ⟨before, bad, after, e, rfl, hbefore, hbad, h⟩ :=
            startTasks_cases order (tasks ++ [t]) { net with channels := net.channels.set p none } hnd
          · left
            refine ⟨List.forall_mem_cons.mpr ⟨hsome, fun q hq => ?_⟩, ?_⟩
            · rw [← hother q hq]
              exact hall q hq
            · rw [startTasks_cons_some ht, h, List.filterMap_congr hother, List.filterMap_cons_some ht,
                List.append_assoc, List.singleton_append, without_cons]
          · right
            refine ⟨p :: before, bad, after, e, rfl, List.forall_mem_cons.mpr ⟨hsome, fun q hq => ?_⟩, ?_, ?_⟩
            · rw [← hother q (List.mem_append_left _ hq)]
              exact hbefore q hq
            · rw [← hother bad (by simp)]
              exact hbad
            · rw [startTasks_cons_some ht, h, List.cons_append, without_cons]

theorem task_isSome {p : ℕ} (h : (net.done start p).isSome = true) : (net.task start p).isSome = true := by
  obtain ⟨d, hd⟩ := Option.isSome_iff_exists.mp h
  rw [done_eq_some.mp hd]
  rfl

/-- The tasks of peers that all succeed. -/
theorem filterMap_task : ∀ order : List ℕ, (∀ p ∈ order, (net.done start p).isSome = true) →
    order.filterMap (net.task start) = (order.filterMap (net.done start)).map .ok
  | [], _ => rfl
  | p :: order, h => by
      obtain ⟨d, hd⟩ := Option.isSome_iff_exists.mp (h p List.mem_cons_self)
      rw [List.filterMap_cons_some (done_eq_some.mp hd), List.filterMap_cons_some hd, List.map_cons,
        filterMap_task order fun q hq => h q (List.mem_cons_of_mem _ hq)]

/-- The values that the tasks hand back, one peer after the other. -/
theorem flatMap_value {γ : Type}
    {start : ℕ → SecureStream σ → Except String (Outcome String (Transferred σ (List γ)))} {value : ℕ → List γ} :
    ∀ {order : List ℕ}, (∀ p ∈ order, ∃ d, net.done start p = some d ∧ d.value = value p) →
    (order.filterMap (net.done start)).flatMap Transferred.value = order.flatMap value
  | [], _ => rfl
  | p :: order, h => by
      obtain ⟨d, hd, hval⟩ := h p List.mem_cons_self
      rw [List.filterMap_cons_some hd, List.flatMap_cons, List.flatMap_cons, hval,
        flatMap_value fun q hq => h q (List.mem_cons_of_mem _ hq)]

namespace BulkTransfer

theorem exists_outcome (start : ℕ → SecureStream σ → Except String (Outcome String (Transferred σ α)))
    (finish : List (Transferred σ α) → Act (MeshNetwork σ) String β) (hnd : order.Nodup) (net : MeshNetwork σ) :
    ∃ r net', BulkTransfer start finish order net r net' := by
  obtain ⟨-, h⟩ | ⟨_, _, _, e, -, -, -, h⟩ := startTasks_cases start order [] net hnd
  · obtain ⟨done, hjoin⟩ := TryJoinAll.exists_outcome ([] ++ order.filterMap (net.task start))
    exact ⟨_, _, .joined h hjoin rfl⟩
  · exact ⟨.err e, _, .refused h⟩

/-- **The ways to end.**  Either all tasks were made and joined, or the loop stopped at a peer without one. -/
theorem ends (hnd : order.Nodup) {r : Outcome String β} (h : BulkTransfer start finish order net r net') :
    (∃ done, (∀ p ∈ order, (net.task start p).isSome = true) ∧ TryJoinAll (order.filterMap (net.task start)) done ∧
      ((Act.ret done).bind finish) (net.without order) = (r, net')) ∨
    ∃ before bad after e, order = before ++ bad :: after ∧ net.task start bad = none ∧ r = .err e ∧
      net' = net.without (before ++ [bad]) := by
  obtain ⟨hall, hrun⟩ | ⟨before, bad, after, e, horder, -, hbad, hrun⟩ := startTasks_cases start order [] net hnd
  · cases h with
    | refused hs =>
        rw [hrun] at hs
        cases (Prod.mk.inj hs).1
    | joined hs hjoin hfinish =>
        rw [hrun] at hs
        obtain ⟨htasks, rfl⟩ := Prod.mk.inj hs
        obtain rfl := Outcome.ok.inj htasks
        exact .inl ⟨_, hall, hjoin, hfinish⟩
  · cases h with
    | refused hs =>
        rw [hrun] at hs
        obtain ⟨he, rfl⟩ := Prod.mk.inj hs
        obtain rfl := Outcome.err.inj he
        exact .inr ⟨before, bad, after, e, horder, hbad, rfl, rfl⟩
    | joined hs _ _ =>
        rw [hrun] at hs
        cases (Prod.mk.inj hs).1

/-- When the tasks of all peers succeed, there is one way to end. -/
theorem of_done (hnd : order.Nodup) (hdone : ∀ p ∈ order, (net.done start p).isSome = true) {r : Outcome String β}
    (h : BulkTransfer start finish order net r net') :
    finish (order.filterMap (net.done start)) (net.without order) = (r, net') := by
  obtain ⟨done, -, hjoin, hfinish⟩ | ⟨before, bad, after, e, rfl, hbad, -, -⟩ := h.ends hnd
  · rw [filterMap_task order hdone] at hjoin
    rw [hjoin.of_map_ok] at hfinish
    exact hfinish
  · have := task_isSome (hdone bad (by simp))
    rw [hbad] at this
    cases this

/-- A success takes the success of all tasks. -/
theorem done_of_ok (hnd : order.Nodup) {b : β} (h : BulkTransfer start finish order net (.ok b) net') :
    ∀ p ∈ order, (net.done start p).isSome = true := by
  obtain ⟨done, hall, hjoin, hfinish⟩ | ⟨_, _, _, _, -, -, herr, -⟩ := h.ends hnd
  · obtain ⟨ds, _, hok, -⟩ := Act.bind_eq_ok.mp hfinish
    obtain ⟨rfl, -⟩ := Prod.mk.inj hok
    intro p hp
    obtain ⟨t, ht⟩ := Option.isSome_iff_exists.mp (hall p hp)
    have hmem : t ∈ order.filterMap (net.task start) := List.mem_filterMap.mpr ⟨p, hp, ht⟩
    rw [hjoin.eq_ok] at hmem
    obtain ⟨d, -, rfl⟩ := List.mem_map.mp hmem
    rw [done_eq_some.mpr ht]
    rfl
  · cases herr

end BulkTransfer

/-! ### The channels after a success -/

section settled

variable (start order net) in
/-- The table when all tasks have handed back their channels. -/
def settled : MeshNetwork σ := (net.without order).restore (order.filterMap (net.done start))

variable (hpeer : ∀ p c d, start p c = .ok (.ok d) → d.peer = p)
include hpeer

theorem peer_of_done {p : ℕ} {d : Transferred σ α} (hd : net.done start p = some d) :
    d.peer = p ∧ p < net.channels.length := by
  obtain ⟨c, hc, ht⟩ := task_eq_some.mp (done_eq_some.mp hd)
  exact ⟨hpeer p c d ht, lt_of_channel hc⟩

theorem map_peer : ∀ order : List ℕ, (∀ p ∈ order, (net.done start p).isSome = true) →
    (order.filterMap (net.done start)).map Transferred.peer = order
  | [], _ => rfl
  | p :: order, h => by
      obtain ⟨d, hd⟩ := Option.isSome_iff_exists.mp (h p List.mem_cons_self)
      rw [List.filterMap_cons_some hd, List.map_cons, (peer_of_done hpeer hd).1,
        map_peer order fun q hq => h q (List.mem_cons_of_mem _ hq)]

/-- Every slot that a task fills is empty when its turn comes. -/
theorem slot_empty {d : Transferred σ α} (hd : d ∈ order.filterMap (net.done start)) :
    (net.without order).channels[d.peer]? = some none := by
  obtain ⟨p, hp, hd⟩ := List.mem_filterMap.mp hd
  obtain ⟨rfl, hlt⟩ := peer_of_done hpeer hd
  have hnone : (net.without order).channel d.peer = none := by rw [channel_without, if_pos hp]
  rw [← without_length order net] at hlt
  rw [channel, List.getElem?_eq_getElem hlt] at hnone
  rw [List.getElem?_eq_getElem hlt]
  exact congrArg some hnone

variable (hnd : order.Nodup) (hdone : ∀ p ∈ order, (net.done start p).isSome = true)
include hnd hdone

theorem channel_settled {p : ℕ} (hp : p ∈ order) {d : Transferred σ α} (hd : net.done start p = some d) :
    (net.settled start order).channel p = some d.channel := by
  have hpeers := map_peer hpeer order hdone
  obtain ⟨rfl, -⟩ := peer_of_done hpeer hd
  refine channel_restore _ _ (by rw [hpeers]; exact hnd) (fun d' hd' => ?_) d (List.mem_filterMap.mpr ⟨_, hp, hd⟩)
  exact (List.getElem?_eq_some_iff.mp (slot_empty hpeer hd')).1

omit hnd in
theorem channel_settled_ne {p : ℕ} (hp : p ∉ order) : (net.settled start order).channel p = net.channel p := by
  rw [settled, channel_restore_ne _ _ (by rw [map_peer hpeer order hdone]; exact hp), channel_without, if_neg hp]

/-- The order of the groups does not matter. -/
theorem settled_perm {order' : List ℕ} (hperm : order'.Perm order) :
    net.settled start order' = net.settled start order := by
  have hdone' : ∀ p ∈ order', (net.done start p).isSome = true := fun p hp => hdone p (hperm.mem_iff.mp hp)
  refine ext_channel rfl rfl ?_ fun p => ?_
  · rw [settled, settled, restore_length, restore_length, without_length, without_length]
  · by_cases hp : p ∈ order
    · obtain ⟨d, hd⟩ := Option.isSome_iff_exists.mp (hdone p hp)
      rw [channel_settled hpeer hnd hdone hp hd,
        channel_settled hpeer (hperm.nodup_iff.mpr hnd) hdone' (hperm.mem_iff.mpr hp) hd]
    · rw [channel_settled_ne hpeer hdone hp, channel_settled_ne hpeer hdone' fun h => hp (hperm.mem_iff.mp h)]

end settled

end transfer

/-! ### What is done with the channels and values -/

theorem putBack_eq {net : MeshNetwork σ} {p : ℕ} (h : net.channels[p]? = some none) (c : SecureStream σ) :
    putBack p c net = (.ok (), { net with channels := net.channels.set p (some c) }) := by
  simp only [putBack, h]

theorem placeObjects_append : ∀ (chunks chunks' : List (ℕ × List T)) (results : List (Option (List T))),
    placeObjects (chunks ++ chunks') results = (placeObjects chunks results).bind (placeObjects chunks')
  | [], _, _ => rfl
  | (index, objects) :: chunks, chunks', results => by
      rw [List.cons_append, placeObjects, placeObjects]
      split
      · exact placeObjects_append chunks chunks' _
      · rfl

/-- The slots of the other tasks stay empty when one channel returns. -/
theorem slot_empty_set {net : MeshNetwork σ} {d : Transferred σ α} {done : List (Transferred σ α)}
    (hnd : ((d :: done).map Transferred.peer).Nodup) (h : ∀ x ∈ d :: done, net.channels[x.peer]? = some none) :
    ∀ x ∈ done, (net.channels.set d.peer (some d.channel))[x.peer]? = some none := by
  intro x hx
  rw [List.map_cons, List.nodup_cons] at hnd
  have hne : d.peer ≠ x.peer := by
    intro heq
    apply hnd.1
    rw [heq]
    exact List.mem_map_of_mem hx
  rw [List.getElem?_set_ne hne]
  exact h x (List.mem_cons_of_mem _ hx)

theorem collectResults_eq : ∀ (done : List (Transferred σ (List (ℕ × List T)))) (len : ℕ)
    (results results' : List (Option (List T))) (net : MeshNetwork σ), (done.map Transferred.peer).Nodup →
    (∀ d ∈ done, net.channels[d.peer]? = some none) →
    placeObjects (done.flatMap Transferred.value) results = .ok results' →
    collectResults done len results net = (.ok (results', len + (done.map Transferred.len).sum), net.restore done)
  | [], len, results, results', net, _, _, hplace => by
      obtain rfl := Outcome.ok.inj hplace
      simp [collectResults, restore]
  | d :: done, len, results, results', net, hnd, hempty, hplace => by
      rw [List.flatMap_cons, placeObjects_append] at hplace
      obtain ⟨r, h1, h2⟩ := Outcome.bind_eq_ok.mp hplace
      rw [collectResults, Act.bind_of_ok (putBack_eq (hempty d List.mem_cons_self) d.channel), h1, Act.ret_ok_bind,
        collectResults_eq done _ r results' _ (List.nodup_cons.mp hnd).2 (slot_empty_set hnd hempty) h2,
        List.map_cons, List.sum_cons, Nat.add_assoc, restore_cons]

theorem finishSend_eq : ∀ (done : List (Transferred σ Unit)) (len : ℕ) (net : MeshNetwork σ),
    (done.map Transferred.peer).Nodup → (∀ d ∈ done, net.channels[d.peer]? = some none) →
    finishSend done len net = (.ok (len + (done.map Transferred.len).sum), net.restore done)
  | [], len, net, _, _ => by simp [finishSend, restore]
  | d :: done, len, net, hnd, hempty => by
      rw [finishSend, Act.bind_of_ok (putBack_eq (hempty d List.mem_cons_self) d.channel),
        finishSend_eq done _ _ (List.nodup_cons.mp hnd).2 (slot_empty_set hnd hempty), List.map_cons, List.sum_cons,
        Nat.add_assoc, restore_cons]

/-! ### What a bulk send does -/

section send

variable [ByteStream σ] {toStdvec : List T → Except String (List UInt8)} {requests : List (SendRequest T)}
  {order : List ℕ} {net net' : MeshNetwork σ}

/-- The task of a peer succeeds when the data of its group is serialised and sent. -/
theorem startSend_eq_ok {p : ℕ} {c : SecureStream σ} {d : Transferred σ Unit} :
    startSend toStdvec requests p c = .ok (.ok d) ↔
      ∃ bytes, toStdvec (dataTo requests p) = .ok bytes ∧ c.send bytes = (.ok d.len, d.channel) ∧ d.peer = p := by
  unfold startSend
  cases toStdvec (dataTo requests p) with
  | error e => simp
  | ok bytes =>
      rcases hs : c.send bytes with ⟨sent, c'⟩
      simp only [sendTask, hs, Except.ok.injEq, exists_eq_left', Prod.mk.injEq]
      constructor
      · intro h
        obtain ⟨len, rfl, hd⟩ := Outcome.bind_eq_ok.mp h
        obtain rfl := Outcome.ok.inj hd
        exact ⟨⟨rfl, rfl⟩, rfl⟩
      · rintro ⟨⟨rfl, rfl⟩, rfl⟩
        rfl

theorem send_peer (p : ℕ) (c : SecureStream σ) (d : Transferred σ Unit)
    (h : startSend toStdvec requests p c = .ok (.ok d)) : d.peer = p := by
  obtain ⟨_, -, -, hp⟩ := startSend_eq_ok.mp h
  exact hp

/-- **A bulk send keeps the channels.**  It has sent one message on the channel of each peer that the
requests name, with the objects of its group, and touched no other channel. -/
theorem sendObjectsMany_ok (hord : IsGroupOrder (requests.map SendRequest.toId) order) {len : ℕ}
    (h : SendObjectsMany toStdvec requests order net (.ok len) net') :
    (∀ p ∈ requests.map SendRequest.toId, ∃ c bytes n c', net.channel p = some c ∧
      toStdvec (dataTo requests p) = .ok bytes ∧ c.send bytes = (.ok n, c') ∧ net'.channel p = some c') ∧
    ∀ p ∉ requests.map SendRequest.toId, net'.channel p = net.channel p := by
  have hnd : order.Nodup := hord.nodup_iff.mpr (List.nodup_dedup _)
  have hmem : ∀ p, p ∈ order ↔ p ∈ requests.map SendRequest.toId := fun p => hord.mem_iff.trans List.mem_dedup
  have hdone := BulkTransfer.done_of_ok hnd h
  have hpeers : ((order.filterMap (net.done (startSend toStdvec requests))).map Transferred.peer).Nodup := by
    rw [map_peer send_peer order hdone]
    exact hnd
  have hfinish := BulkTransfer.of_done hnd hdone h
  rw [finishSend_eq _ 0 _ hpeers fun d hd => slot_empty send_peer hd] at hfinish
  have hnet : net' = net.settled (startSend toStdvec requests) order := (Prod.mk.inj hfinish).2.symm
  rw [hnet]
  refine ⟨fun p hp => ?_, fun p hp => channel_settled_ne send_peer hdone fun h => hp ((hmem p).mp h)⟩
  rw [← hmem] at hp
  obtain ⟨d, hd⟩ := Option.isSome_iff_exists.mp (hdone p hp)
  obtain ⟨c, hc, ht⟩ := task_eq_some.mp (done_eq_some.mp hd)
  obtain ⟨bytes, hbytes, hsend, -⟩ := startSend_eq_ok.mp ht
  exact ⟨c, bytes, d.len, d.channel, hc, hbytes, hsend, channel_settled send_peer hnd hdone hp hd⟩

end send

end MeshNetwork

end MpcCore

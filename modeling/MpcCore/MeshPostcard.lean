import MpcCore.ClusterBuffers
import MpcCore.ClusterBytes

/-! # A mesh as a network

The bulk methods of `MeshNetwork` as functions, and the `Network` that they make with the formats of `postcard`.

* `bulkTransfer`: a bulk method whose tasks end in the order of the groups, one of the ways it can end.
* `Meshed`: a mesh with the formats of its objects and of the hashes; `Meshed.backed`: its methods are those of
  `MeshNetwork`.
* `Codec.ofReads`, `postcard`: a format with a reader, and `postcard` for lists of integers. -/

namespace MpcCore

open MeshNetwork (OpenPipe IsGroupOrder SendObjectsMany RecvObjectsMany BulkTransfer)

/-! ### Bulk methods as functions -/

namespace MeshNetwork

variable {σ α β T : Type} {start : ℕ → SecureStream σ → Except String (Outcome String (Transferred σ α))}
  {finish : List (Transferred σ α) → Act (MeshNetwork σ) String β} {order : List ℕ}

/-- A bulk method when each task ends before the next one does. -/
def bulkTransfer (start : ℕ → SecureStream σ → Except String (Outcome String (Transferred σ α)))
    (finish : List (Transferred σ α) → Act (MeshNetwork σ) String β) (order : List ℕ) : Act (MeshNetwork σ) String β :=
  (startTasks start order []).bind fun tasks => (Act.ret (tryJoinInOrder tasks)).bind finish

theorem BulkTransfer.ofFunction (hnd : order.Nodup) {net net' : MeshNetwork σ} {r : Outcome String β}
    (h : bulkTransfer start finish order net = (r, net')) : BulkTransfer start finish order net r net' := by
  obtain ⟨-, hs⟩ | ⟨_, _, _, e, -, -, -, hs⟩ := startTasks_cases start order [] net hnd
  · rw [bulkTransfer, Act.bind_of_ok hs] at h
    exact .joined hs (.inOrder _) h
  · simp only [bulkTransfer, Act.bind, hs] at h
    obtain ⟨rfl, rfl⟩ := Prod.mk.inj h
    exact .refused hs

variable [ByteStream σ]

/-- `send_objects_many`, with the groups in the order of their last requests. -/
def sendObjectsMany (toStdvec : List T → Except String (List UInt8)) (requests : List (SendRequest T)) :
    Act (MeshNetwork σ) String ℕ :=
  bulkTransfer (startSend toStdvec requests) (fun done => finishSend done 0) (requests.map SendRequest.toId).dedup

/-- `recv_objects_many`, with the groups in the order of their last requests. -/
def recvObjectsMany (fromBytes : List UInt8 → Except String (List T)) (requests : List ReceiveRequest) :
    Act (MeshNetwork σ) String (List (List T) × ℕ) :=
  bulkTransfer (startRecv fromBytes requests) (finishRecv requests.length) (requests.map ReceiveRequest.fromId).dedup

end MeshNetwork

/-! ### The network -/

variable {Elem : Type} {codec : Codec Elem} {hashes : Codec (List UInt8)} {α : Type}

/-- A mesh whose objects, and whose hashes, have these formats. -/
structure Meshed (codec : Codec Elem) (hashes : Codec (List UInt8)) where
  mesh : MeshNetwork OpenPipe

/-- A call of the mesh. -/
def Meshed.call (x : Act (MeshNetwork OpenPipe) String α) : Act (Meshed codec hashes) String α := fun net =>
  ((x net.mesh).1, ⟨(x net.mesh).2⟩)

instance : Network (Meshed codec hashes) Elem where
  nPlayers net := net.mesh.nParties
  myId net := net.mesh.myId
  broadcastObject hash := Meshed.call (MeshNetwork.broadcastObject hashes.toStdvec hash)
  recvHashesMany requests := Meshed.call (MeshNetwork.recvObjectsMany hashes.fromBytes requests)
  sendObjectsMany requests := Meshed.call (MeshNetwork.sendObjectsMany codec.toStdvec requests)
  recvObjectsMany requests := Meshed.call (MeshNetwork.recvObjectsMany codec.fromBytes requests)

theorem Meshed.call_eq {x : Act (MeshNetwork OpenPipe) String α} {net net' : Meshed codec hashes}
    {r : Outcome String α} (h : Meshed.call x net = (r, net')) : x net.mesh = (r, net'.mesh) := by
  obtain ⟨hr, rfl⟩ := Prod.mk.inj h
  exact Prod.ext hr rfl

/-- **Its methods are those of a mesh.** -/
def Meshed.backed : MeshBacked (Meshed codec hashes) codec hashes where
  mesh := Meshed.mesh
  onMesh _ m := ⟨m⟩
  mesh_onMesh _ _ := rfl
  myId _ := rfl
  nPlayers _ := rfl
  broadcastObject _ _ _ _ h := Meshed.call_eq h
  recvHashesMany _ _ _ _ h := ⟨_, .refl _, .ofFunction (List.nodup_dedup _) (Meshed.call_eq h)⟩
  sendObjectsMany _ _ _ _ h := ⟨_, .refl _, .ofFunction (List.nodup_dedup _) (Meshed.call_eq h)⟩
  recvObjectsMany _ _ _ _ h := ⟨_, .refl _, .ofFunction (List.nodup_dedup _) (Meshed.call_eq h)⟩

/-! ### Formats -/

section ofReads

variable {T : Type} {good : T → Prop} [DecidablePred good] {read : List UInt8 → Option (T × List UInt8)}
  {f : T → List UInt8}

/-- The format of `postcard` for lists, from that of their elements.  What no `Vec` holds has no bytes, and bytes
behind the list are ignored. -/
def Codec.ofReads (h : Reads good read f) : Codec T where
  toStdvec objs := if ShortSeq good objs then .ok (encodeSeq f objs) else .error "No such Vec"
  fromBytes bytes :=
    match readSeq read bytes with
    | some (objs, _) => .ok objs
    | none => .error "Hit the end of buffer, expected more data"
  readsBack {objs bytes} hbytes := by
    split at hbytes
    · next hshort =>
        obtain rfl := Except.ok.inj hbytes
        have hread := h.seq objs hshort []
        rw [List.append_nil] at hread
        simp only [hread]
    · cases hbytes

theorem toStdvec_ofReads {h : Reads good read f} {objs : List T} {bytes : List UInt8} :
    (Codec.ofReads h).toStdvec objs = .ok bytes ↔ ShortSeq good objs ∧ encodeSeq f objs = bytes := by
  simp only [Codec.ofReads]
  split <;> simp [*]

end ofReads

/-- A byte is itself. -/
def readByte : List UInt8 → Option (UInt8 × List UInt8)
  | [] => none
  | b :: bytes => some (b, bytes)

theorem reads_byte : Reads (fun _ => True) readByte fun b => [b] := fun _ _ _ => rfl

/-- `Vec<u64>` -/
def postcard : Codec ℕ := .ofReads reads_varint

/-- `Vec<Vec<u8>>` -/
def postcardHashes : Codec (List UInt8) := .ofReads reads_byte.seq

theorem sizes_postcard : postcard.Sizes Message.wireSize := by
  rintro bytes message ⟨objs, rfl, hbytes⟩
  obtain ⟨-, rfl⟩ := toStdvec_ofReads.mp hbytes
  rfl

end MpcCore

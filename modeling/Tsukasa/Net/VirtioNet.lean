import Tsukasa.Base.Word
import Mathlib.Logic.Function.Basic
import Mathlib.Data.Nat.ModEq

/-!
# The virtio-net driver

`net/nic/virtio_net.c` and the rings it shares with the device. Indices run freely in 16 bits. A physical address is the buffer it points to.
-/

namespace Tsukasa

def vringDescFNext : Nat := 1
def vringDescFWrite : Nat := 2

inductive VirtioAddr where
  | null
  | txHdr (i : Nat)
  | txBuffer (i : Nat)
  | rxBuffer (i : Nat)
deriving DecidableEq

structure VirtqDesc where
  addr : VirtioAddr
  len : Nat
  flags : Nat
  next : Nat
deriving DecidableEq

structure VirtqUsedElem where
  id : Nat
  len : Nat
deriving DecidableEq

structure Virtqueue where
  desc : Nat → VirtqDesc
  availIdx : Nat
  availRing : Nat → Nat
  usedIdx : Nat
  usedRing : Nat → VirtqUsedElem
  qSize : Nat
  lastUsedIdx : Nat
  lastAvailIdx : Nat

structure VirtioNetHdr where
  flags : Nat
  gsoType : Nat
  hdrLen : Nat
  gsoSize : Nat
  csumStart : Nat
  csumOffset : Nat
deriving DecidableEq

def virtioNetHdrSize : Nat := 10

structure VirtioNet where
  initialized : Bool
  rxVq : Virtqueue
  txVq : Virtqueue
  rxBuffers : Nat → Nat → UInt8
  txBuffers : Nat → Nat → UInt8
  txHdr : Nat → VirtioNetHdr

/-- `virtqueue_init` on zeroed memory. -/
def virtqueueInit (vq : Virtqueue) (qsize : Nat) : Virtqueue :=
  if qsize = 0 then vq
  else ⟨fun _ => ⟨.null, 0, 0, 0⟩, 0, fun _ => 0, 0, fun _ => ⟨0, 0⟩, qsize, 0, 0⟩

/-- The receive queue as `virtio_attach` fills it: every descriptor is posted. -/
def rxSetup (rxq : Virtqueue) (qsize : Nat) : Virtqueue :=
  let rxq := virtqueueInit rxq qsize
  { rxq with
    desc := fun i => if i < qsize then ⟨.rxBuffer i, 2048, vringDescFWrite, 0⟩ else rxq.desc i
    availRing := fun i => if i < qsize then i else rxq.availRing i
    availIdx := qsize
    lastAvailIdx := qsize }

/-- The queues in `virtio_attach`, for the sizes the device gives. -/
def virtioAttach (s : VirtioNet) (rxQsize txQsize : Nat) : Int × VirtioNet :=
  if rxQsize = 0 then (-1, s)
  else
    let s := { s with rxVq := rxSetup s.rxVq (min rxQsize 256) }
    if txQsize = 0 then (-1, s) else (0, { s with initialized := true, txVq := virtqueueInit s.txVq (min txQsize 256) })

/-- The cells of a ring from one index to another. -/
def ringCells {α : Type} (ring : Nat → α) (size first last : Nat) : List α :=
  (List.range (wrap16 (last + 2 ^ 16 - first))).map fun i => ring (wrap16 (first + i) % size)

/-! ### Indices -/

theorem wrap16_mod {m : Nat} (h : m ∣ 2 ^ 16) (n : Nat) : wrap16 n % m = n % m := Nat.mod_mod_of_dvd n h

theorem wrap16_succ (n : Nat) : wrap16 (wrap16 n + 1) = wrap16 (n + 1) := by
  simp only [wrap16]
  omega

theorem mod_ne_of_lt {m i j : Nat} (hlt : i < j) (hnear : j < i + m) : i % m ≠ j % m := by
  intro heq
  have hzero : (i + 0) % m = (i + (j - i)) % m := by rwa [Nat.add_zero, Nat.add_sub_cancel' (Nat.le_of_lt hlt)]
  have := (Nat.ModEq.add_left_cancel' i hzero).eq_of_lt_of_lt (by omega) (by omega)
  omega

theorem queue_size_power {q : Nat} (hpower : q.isPowerOfTwo) (hhi : q ≤ 256) : ∃ k ≤ 8, q = 2 ^ k := by
  obtain ⟨k, rfl⟩ := hpower
  refine ⟨k, ?_, rfl⟩
  by_contra hneg
  have := Nat.pow_le_pow_right (show 0 < 2 by decide) (show 9 ≤ k by omega)
  omega

/-- A ring holds the end of the list of everything put into it. -/
theorem ringCells_eq_drop {α : Type} {ring : Nat → α} {size first : Nat} {xs : List α} (hsize : size ∣ 2 ^ 16) (hfirst : first ≤ xs.length)
    (hnear : xs.length < first + 2 ^ 16) (hcells : ∀ j x, first ≤ j → xs[j]? = some x → ring (j % size) = x) :
    ringCells ring size (wrap16 first) (wrap16 xs.length) = xs.drop first := by
  have hcount : wrap16 (wrap16 xs.length + 2 ^ 16 - wrap16 first) = xs.length - first := by
    simp only [wrap16]
    omega
  rw [ringCells, hcount]
  apply List.ext_getElem
  · simp
  · intro i hi hi'
    have hidx : wrap16 (wrap16 first + i) = wrap16 (first + i) := by
      simp only [wrap16]
      omega
    rw [List.length_drop] at hi'
    rw [List.getElem_map, List.getElem_range, List.getElem_drop, hidx, wrap16_mod hsize]
    exact hcells (first + i) _ (Nat.le_add_right _ _) (List.getElem?_eq_getElem (by omega))

/-! ### Sending -/

/-- The bytes that a frame takes on the wire. -/
def wireData (data : List UInt8) : List UInt8 := data ++ List.replicate (60 - data.length) 0

/-- The test of `virtio_send_packet` for too many heads in flight. -/
def txQueueFull (txq : Virtqueue) : Bool := wrap16 (txq.qSize + 2 ^ 16 - 2) ≤ wrap16 (txq.availIdx + 2 ^ 16 - txq.usedIdx)

/-- `virtio_send_packet`; `none` is a null pointer. -/
def virtioSendPacket (s : VirtioNet) : Option (List UInt8) → Int × VirtioNet
  | none => (-1, s)
  | some data =>
      if !s.initialized ∨ data.length = 0 ∨ 1514 < data.length then (-1, s)
      else if txQueueFull s.txVq then (-1, s)
      else
        let txq := s.txVq
        let head := wrap16 (txq.lastAvailIdx % (txq.qSize / 2))
        let d0 := wrap16 (head * 2)
        let d1 := wrap16 (d0 + 1)
        let wire := wireData data
        let desc := Function.update txq.desc d0 ⟨.txHdr head, virtioNetHdrSize, vringDescFNext, d1⟩
        (0, { s with
          txHdr := Function.update s.txHdr head ⟨0, 0, 0, 0, 0, 0⟩
          txBuffers := Function.update s.txBuffers head fun i => if i < wire.length then wire.getD i 0 else s.txBuffers head i
          txVq := { txq with
            desc := Function.update desc d1 ⟨.txBuffer head, wire.length, 0, 0⟩
            availRing := Function.update txq.availRing (txq.availIdx % txq.qSize) d0
            availIdx := wrap16 (txq.availIdx + 1)
            lastAvailIdx := wrap16 (txq.lastAvailIdx + 1) } })

/-- What the device sends for the head `id`: the header and the bytes its two descriptors lead to. -/
def VirtioNet.txFrame (s : VirtioNet) (id : Nat) : Option (VirtioNetHdr × List UInt8) :=
  let first := s.txVq.desc id
  let second := s.txVq.desc first.next
  match first.addr, second.addr with
  | .txHdr h, .txBuffer b => some (s.txHdr h, (List.range second.len).map (s.txBuffers b))
  | _, _ => none

/-- A step of the device: the oldest head that it has not completed is sent and reported. -/
def virtioTxDevice (s : VirtioNet) : Option (Option (VirtioNetHdr × List UInt8)) × VirtioNet :=
  let txq := s.txVq
  if txq.usedIdx = txq.availIdx then (none, s)
  else
    let id := txq.availRing (txq.usedIdx % txq.qSize)
    (some (s.txFrame id), { s with txVq := { txq with
      usedRing := Function.update txq.usedRing (txq.usedIdx % txq.qSize) ⟨id, 0⟩
      usedIdx := wrap16 (txq.usedIdx + 1) } })

/-! ### Receiving -/

/-- `virtio_receive_packet` up to the point where it gives the descriptor back: the descriptor it has taken and what it puts in the buffer. A null buffer is one of size 0. -/
def virtioTakeUsed (s : VirtioNet) (bufferSize : Nat) : Option (Nat × List UInt8) × VirtioNet :=
  let rxq := s.rxVq
  if !s.initialized ∨ bufferSize = 0 then (none, s)
  else if rxq.lastUsedIdx = rxq.usedIdx then (none, s)
  else
    let elem := rxq.usedRing (rxq.lastUsedIdx % rxq.qSize)
    let s := { s with rxVq := { rxq with lastUsedIdx := wrap16 (rxq.lastUsedIdx + 1) } }
    if elem.len ≤ virtioNetHdrSize then (some (elem.id, []), s)
    else
      let payloadLen := min (elem.len - virtioNetHdrSize) bufferSize
      (some (elem.id, (List.range payloadLen).map fun i => s.rxBuffers elem.id (virtioNetHdrSize + i)), s)

/-- The rest of it: the descriptor goes back to the available ring. -/
def virtioRepost (s : VirtioNet) (dIdx : Nat) : VirtioNet :=
  let rxq := s.rxVq
  { s with rxVq := { rxq with
    availRing := Function.update rxq.availRing (rxq.availIdx % rxq.qSize) (wrap16 dIdx)
    availIdx := wrap16 (rxq.availIdx + 1) } }

/-- A step of the device: it fills the buffer of `head` and reports it. -/
def virtioRxDevice (s : VirtioNet) (head : Nat) (bytes : List UInt8) : VirtioNet :=
  let rxq := s.rxVq
  { s with
    rxBuffers := Function.update s.rxBuffers head fun i => if i < bytes.length then bytes.getD i 0 else s.rxBuffers head i
    rxVq := { rxq with
      usedRing := Function.update rxq.usedRing (rxq.usedIdx % rxq.qSize) ⟨head, bytes.length⟩
      usedIdx := wrap16 (rxq.usedIdx + 1) } }

end Tsukasa

import Tsukasa.Net.VirtioNet
import Tsukasa.Lib.Run

/-!
# Transmit on virtio-net

A frame takes two descriptors, so a queue of `q` has `q / 2` slots for frames, and a send takes the slots in turn. The driver lets `q - 2` frames be in flight. As long as a send finds fewer than `q / 2` of them, its slot is free and the device sends what it was given.
-/

namespace Tsukasa

open Lib

/-! ### Queue sizes -/

/-- What the size of a queue is used for. -/
structure TxQueueSize (q : Nat) : Prop where
  two : 2 ≤ q
  small : q ≤ 256
  even : q / 2 * 2 = q
  dvd : q ∣ 2 ^ 16
  half_dvd : q / 2 ∣ 2 ^ 16

theorem txQueueSize_of_power {q : Nat} (hpower : q.isPowerOfTwo) (hlo : 2 ≤ q) (hhi : q ≤ 256) : TxQueueSize q := by
  obtain ⟨k, hk, rfl⟩ := queue_size_power hpower hhi
  cases k with
  | zero => omega
  | succ k =>
      have hhalf : 2 ^ (k + 1) / 2 = 2 ^ k := by rw [Nat.pow_succ, Nat.mul_div_cancel _ (by decide)]
      refine ⟨hlo, hhi, ?_, Nat.pow_dvd_pow 2 (by omega), ?_⟩
      · rw [hhalf, Nat.pow_succ]
      · rw [hhalf]
        exact Nat.pow_dvd_pow 2 (by omega)

/-! ### Runs -/

inductive VirtioTxStep where
  | send (data : Option (List UInt8))
  | device

/-- The card with the frames its driver has posted and what it has sent. -/
structure VirtioTxTrace where
  nic : VirtioNet
  posted : List (List UInt8)
  sent : List (Option (VirtioNetHdr × List UInt8))

namespace VirtioTxTrace

def step (t : VirtioTxTrace) : VirtioTxStep → VirtioTxTrace
  | .send data =>
      let r := virtioSendPacket t.nic data
      { t with nic := r.2, posted := if r.1 = 0 then t.posted ++ data.toList else t.posted }
  | .device =>
      let r := virtioTxDevice t.nic
      { t with nic := r.2, sent := t.sent ++ r.1.toList }

def start (s : VirtioNet) (rxQsize q : Nat) : VirtioTxTrace := ⟨(virtioAttach s rxQsize q).2, [], []⟩

/-- A frame on the wire with its header. -/
def onWire (data : List UInt8) : Option (VirtioNetHdr × List UInt8) := some (⟨0, 0, 0, 0, 0, 0⟩, wireData data)

/-- The heads the device has been given and has not completed. -/
def inFlight (txq : Virtqueue) : List Nat := ringCells txq.availRing txq.qSize txq.usedIdx txq.availIdx

/-- The head that the next send writes, with the header and the buffer of the same slot. -/
def nextHead (txq : Virtqueue) : Nat := wrap16 (wrap16 (txq.lastAvailIdx % (txq.qSize / 2)) * 2)

/-- What is sent are the frames posted, in their order, and those in flight are sent by as many steps of the device. -/
structure Sound (t : VirtioTxTrace) : Prop where
  order : t.sent <+: t.posted.map onWire
  drains : (run step t (List.replicate (inFlight t.nic.txVq).length .device)).sent = t.posted.map onWire

/-- A send that returns 0 does not write to a slot that is in flight. -/
def NoOverwrite (t : VirtioTxTrace) : VirtioTxStep → Prop
  | .send data => (virtioSendPacket t.nic data).1 = 0 → nextHead t.nic.txVq ∉ inFlight t.nic.txVq
  | .device => True

/-- Fewer frames are in flight than the queue has slots, or the queue counts as full. -/
def Room (t : VirtioTxTrace) : VirtioTxStep → Prop
  | .send (some data) => 0 < data.length → data.length ≤ 1514 → txQueueFull t.nic.txVq = false →
      wrap16 (t.nic.txVq.availIdx + 2 ^ 16 - t.nic.txVq.usedIdx) < t.nic.txVq.qSize / 2
  | _ => True

/-- The slot of the frame with number `j` holds `data`. -/
structure SlotHolds (s : VirtioNet) (q j : Nat) (data : List UInt8) : Prop where
  ring : s.txVq.availRing (j % q) = j % (q / 2) * 2
  first : s.txVq.desc (j % (q / 2) * 2) = ⟨.txHdr (j % (q / 2)), virtioNetHdrSize, vringDescFNext, j % (q / 2) * 2 + 1⟩
  second : s.txVq.desc (j % (q / 2) * 2 + 1) = ⟨.txBuffer (j % (q / 2)), (wireData data).length, 0, 0⟩
  header : s.txHdr (j % (q / 2)) = ⟨0, 0, 0, 0, 0, 0⟩
  bytes : ∀ i < (wireData data).length, s.txBuffers (j % (q / 2)) i = (wireData data).getD i 0

/-- `n` frames are in flight, each in its slot. -/
structure Inv (q : Nat) (t : VirtioTxTrace) (n : Nat) : Prop where
  initialized : t.nic.initialized = true
  size : t.nic.txVq.qSize = q
  count : t.posted.length = t.sent.length + n
  slots : n ≤ q / 2
  avail : t.nic.txVq.availIdx = wrap16 t.posted.length
  last : t.nic.txVq.lastAvailIdx = wrap16 t.posted.length
  used : t.nic.txVq.usedIdx = wrap16 t.sent.length
  sent : t.sent = (t.posted.take t.sent.length).map onWire
  holds : ∀ j data, t.sent.length ≤ j → t.posted[j]? = some data → SlotHolds t.nic q j data

variable {q n : Nat} {t : VirtioTxTrace} {data : List UInt8}

theorem start_inv (hq : TxQueueSize q) (s : VirtioNet) {rxQsize : Nat} (hrx : rxQsize ≠ 0) : Inv q (start s rxQsize q) 0 := by
  have htwo := hq.two
  have hattach : (virtioAttach s rxQsize q).2.initialized = true ∧ (virtioAttach s rxQsize q).2.txVq =
      ⟨fun _ => ⟨.null, 0, 0, 0⟩, 0, fun _ => 0, 0, fun _ => ⟨0, 0⟩, q, 0, 0⟩ := by
    rw [virtioAttach, if_neg hrx, if_neg (by omega)]
    simp only [virtqueueInit, Nat.min_eq_left hq.small]
    exact ⟨trivial, if_neg (by omega)⟩
  obtain ⟨hinit, htx⟩ := hattach
  refine ⟨hinit, ?_, rfl, Nat.zero_le _, ?_, ?_, ?_, rfl, fun j data _ hj => ?_⟩
  · rw [start, htx]
  · rw [start, htx]
    rfl
  · rw [start, htx]
    rfl
  · rw [start, htx]
    rfl
  · simp [start] at hj

theorem Inv.inFlight (h : Inv q t n) (hq : TxQueueSize q) : wrap16 (t.nic.txVq.availIdx + 2 ^ 16 - t.nic.txVq.usedIdx) = n := by
  have hslots := h.slots
  have hsmall := hq.small
  rw [h.avail, h.used, h.count]
  simp only [wrap16]
  omega

theorem Inv.length_inFlight (h : Inv q t n) (hq : TxQueueSize q) : (VirtioTxTrace.inFlight t.nic.txVq).length = n := by
  rw [VirtioTxTrace.inFlight, ringCells, List.length_map, List.length_range, h.inFlight hq]

theorem Inv.slot_lt (hq : TxQueueSize q) (j : Nat) : j % (q / 2) < q / 2 := by
  have := hq.two
  exact Nat.mod_lt _ (by omega)

theorem Inv.nextHead (h : Inv q t n) (hq : TxQueueSize q) : VirtioTxTrace.nextHead t.nic.txVq = t.posted.length % (q / 2) * 2 ∧
    wrap16 (t.nic.txVq.lastAvailIdx % (t.nic.txVq.qSize / 2)) = t.posted.length % (q / 2) := by
  have hslot := Inv.slot_lt hq t.posted.length
  have hsmall := hq.small
  have hhead : wrap16 (t.nic.txVq.lastAvailIdx % (t.nic.txVq.qSize / 2)) = t.posted.length % (q / 2) := by
    rw [h.last, h.size, wrap16_mod hq.half_dvd, wrap16, Nat.mod_eq_of_lt (by omega)]
  refine ⟨?_, hhead⟩
  rw [VirtioTxTrace.nextHead, hhead, wrap16, Nat.mod_eq_of_lt (by omega)]

/-- A frame that is admitted is posted in the next slot. -/
theorem Inv.send_eq (h : Inv q t n) (hq : TxQueueSize q) (hpos : 0 < data.length) (hlen : data.length ≤ 1514) (hfull : txQueueFull t.nic.txVq = false) :
    virtioSendPacket t.nic (some data) =
      let p := t.posted.length
      (0, { t.nic with
        txHdr := Function.update t.nic.txHdr (p % (q / 2)) ⟨0, 0, 0, 0, 0, 0⟩
        txBuffers := Function.update t.nic.txBuffers (p % (q / 2)) fun i =>
          if i < (wireData data).length then (wireData data).getD i 0 else t.nic.txBuffers (p % (q / 2)) i
        txVq := { t.nic.txVq with
          desc := Function.update (Function.update t.nic.txVq.desc (p % (q / 2) * 2)
            ⟨.txHdr (p % (q / 2)), virtioNetHdrSize, vringDescFNext, p % (q / 2) * 2 + 1⟩) (p % (q / 2) * 2 + 1)
            ⟨.txBuffer (p % (q / 2)), (wireData data).length, 0, 0⟩
          availRing := Function.update t.nic.txVq.availRing (p % q) (p % (q / 2) * 2)
          availIdx := wrap16 (p + 1)
          lastAvailIdx := wrap16 (p + 1) } }) := by
  have hvalid : ¬ ((!t.nic.initialized) = true ∨ data.length = 0 ∨ 1514 < data.length) := by
    simp only [h.initialized, Bool.not_true, Bool.false_eq_true, false_or]
    omega
  obtain ⟨hhead, hslot⟩ := h.nextHead hq
  rw [VirtioTxTrace.nextHead] at hhead
  have hlt := Inv.slot_lt hq t.posted.length
  have hsmall := hq.small
  have hnext : wrap16 (t.posted.length % (q / 2) * 2 + 1) = t.posted.length % (q / 2) * 2 + 1 := Nat.mod_eq_of_lt (by omega)
  have havail : t.nic.txVq.availIdx % t.nic.txVq.qSize = t.posted.length % q := by rw [h.avail, h.size, wrap16_mod hq.dvd]
  rw [virtioSendPacket, if_neg hvalid, if_neg (by simp [hfull])]
  simp only [hhead]
  simp only [hslot, hnext, havail]
  simp only [h.avail, h.last, wrap16_succ]

theorem send_refused (hbad : ¬ (0 < data.length ∧ data.length ≤ 1514 ∧ txQueueFull t.nic.txVq = false)) :
    virtioSendPacket t.nic (some data) = (-1, t.nic) := by
  rw [virtioSendPacket]
  split
  · rfl
  · rename_i hvalid
    rw [if_pos]
    by_contra hneg
    simp only [not_or] at hvalid
    exact hbad ⟨by omega, by omega, by simpa using hneg⟩

theorem Inv.send (h : Inv q t n) (hq : TxQueueSize q) (hpos : 0 < data.length) (hlen : data.length ≤ 1514)
    (hfull : txQueueFull t.nic.txVq = false) (hroom : n < q / 2) : Inv q (t.step (.send (some data))) (n + 1) := by
  have hcount := h.count
  have htwo := hq.two
  simp only [step, h.send_eq hq hpos hlen hfull, if_true, Option.toList_some]
  refine ⟨h.initialized, h.size, ?_, hroom, ?_, ?_, h.used, ?_, ?_⟩
  · rw [List.length_append, List.length_singleton, hcount, Nat.add_assoc]
  · rw [List.length_append, List.length_singleton]
  · rw [List.length_append, List.length_singleton]
  · have hlen : t.sent.length ≤ t.posted.length := by omega
    rw [List.take_append_of_le_length hlen]
    exact h.sent
  · intro j data' hj hdata
    simp only at hj hdata
    rcases Nat.lt_or_ge j t.posted.length with hlt | hge
    · -- an earlier frame has another slot and another cell of the ring
      rw [List.getElem?_append_left hlt] at hdata
      obtain ⟨hring, hfirst, hsecond, hheader, hbytes⟩ := h.holds j data' hj hdata
      have hcell : j % q ≠ t.posted.length % q := mod_ne_of_lt hlt (by omega)
      have hslot : j % (q / 2) ≠ t.posted.length % (q / 2) := mod_ne_of_lt hlt (by omega)
      refine ⟨?_, ?_, ?_, ?_, ?_⟩
      · simp only [Function.update_of_ne hcell]
        exact hring
      · simp only
        rw [Function.update_of_ne (by omega), Function.update_of_ne (by omega)]
        exact hfirst
      · simp only
        rw [Function.update_of_ne (by omega), Function.update_of_ne (by omega)]
        exact hsecond
      · simp only [Function.update_of_ne hslot]
        exact hheader
      · simp only [Function.update_of_ne hslot]
        exact hbytes
    · have hlast : j = t.posted.length := by
        have := (List.getElem?_eq_some_iff.mp hdata).1
        rw [List.length_append, List.length_singleton] at this
        omega
      rw [hlast, List.getElem?_concat_length] at hdata
      obtain rfl := Option.some.inj hdata
      rw [hlast]
      refine ⟨Function.update_self _ _ _, ?_, Function.update_self _ _ _, Function.update_self _ _ _, ?_⟩
      · simp only
        rw [Function.update_of_ne (by omega), Function.update_self]
      · intro i hi
        simp only [Function.update_self]
        rw [if_pos hi]

/-- The frame in a slot is what the device sends for its head. -/
theorem SlotHolds.txFrame {s : VirtioNet} {j : Nat} (h : SlotHolds s q j data) : s.txFrame (s.txVq.availRing (j % q)) = onWire data := by
  have hbytes : (List.range (wireData data).length).map (s.txBuffers (j % (q / 2))) = wireData data := by
    apply List.ext_getElem
    · simp
    · intro i hi hi'
      rw [List.getElem_map, List.getElem_range, h.bytes i hi', List.getD_eq_getElem?_getD, List.getElem?_eq_getElem hi', Option.getD_some]
  simp only [VirtioNet.txFrame, h.ring, h.first, h.second, h.header, hbytes]
  rfl

theorem Inv.device (h : Inv q t (n + 1)) (hq : TxQueueSize q) : Inv q (t.step .device) n ∧ (t.step .device).posted = t.posted := by
  have hcount := h.count
  have hslots := h.slots
  have hsmall := hq.small
  have hne : t.nic.txVq.usedIdx ≠ t.nic.txVq.availIdx := by
    rw [h.used, h.avail, hcount]
    simp only [wrap16]
    omega
  have hcell : t.nic.txVq.usedIdx % t.nic.txVq.qSize = t.sent.length % q := by rw [h.used, h.size, wrap16_mod hq.dvd]
  have hlt : t.sent.length < t.posted.length := by omega
  have hframe := (h.holds t.sent.length _ le_rfl (List.getElem?_eq_getElem hlt)).txFrame
  refine ⟨?_, rfl⟩
  simp only [step, virtioTxDevice, if_neg hne, hcell, hframe, Option.toList_some]
  refine ⟨h.initialized, h.size, ?_, by omega, h.avail, h.last, ?_, ?_, ?_⟩
  · rw [List.length_append, List.length_singleton, hcount]
    omega
  · simp only [h.used, List.length_append, List.length_singleton, wrap16]
    omega
  · rw [List.length_append, List.length_singleton, List.take_succ_eq_append_getElem hlt, List.map_append, ← h.sent]
    rfl
  · intro j data' hj hdata
    rw [List.length_append, List.length_singleton] at hj
    obtain ⟨hring, hfirst, hsecond, hheader, hbytes⟩ := h.holds j data' (by omega) hdata
    exact ⟨hring, hfirst, hsecond, hheader, hbytes⟩

theorem Inv.device_empty (h : Inv q t 0) : t.step .device = t := by
  have heq : t.nic.txVq.usedIdx = t.nic.txVq.availIdx := by rw [h.used, h.avail, h.count, Nat.add_zero]
  simp only [VirtioTxTrace.step, virtioTxDevice, if_pos heq, Option.toList_none, List.append_nil]

theorem Inv.drain (h : Inv q t n) (hq : TxQueueSize q) : (run VirtioTxTrace.step t (List.replicate n .device)).sent = t.posted.map onWire := by
  induction n generalizing t with
  | zero =>
      rw [List.replicate_zero, run_nil, h.sent, List.take_of_length_le]
      rw [h.count, Nat.add_zero]
  | succ n ih =>
      obtain ⟨hnext, hposted⟩ := h.device hq
      rw [List.replicate_succ, run_cons, ih hnext, hposted]

theorem Inv.sound (h : Inv q t n) (hq : TxQueueSize q) : t.Sound := by
  refine ⟨?_, by rw [h.length_inFlight hq]; exact h.drain hq⟩
  rw [h.sent]
  exact (List.take_prefix _ _).map _

/-- The heads in flight are those of the slots in use. -/
theorem Inv.mem_inFlight (h : Inv q t n) (hq : TxQueueSize q) {head : Nat} :
    head ∈ VirtioTxTrace.inFlight t.nic.txVq ↔ ∃ i < n, head = (t.sent.length + i) % (q / 2) * 2 := by
  have hcount := h.count
  have hcell : ∀ i < n, t.nic.txVq.availRing (wrap16 (t.nic.txVq.usedIdx + i) % t.nic.txVq.qSize) = (t.sent.length + i) % (q / 2) * 2 := by
    intro i hi
    have hidx : wrap16 (t.nic.txVq.usedIdx + i) = wrap16 (t.sent.length + i) := by
      rw [h.used]
      simp only [wrap16]
      omega
    rw [hidx, h.size, wrap16_mod hq.dvd]
    exact (h.holds (t.sent.length + i) _ (Nat.le_add_right _ _) (List.getElem?_eq_getElem (by omega))).ring
  rw [VirtioTxTrace.inFlight, ringCells, h.inFlight hq, List.mem_map]
  constructor
  · rintro ⟨i, hi, rfl⟩
    exact ⟨i, List.mem_range.mp hi, hcell i (List.mem_range.mp hi)⟩
  · rintro ⟨i, hi, rfl⟩
    exact ⟨i, List.mem_range.mpr hi, hcell i hi⟩

theorem Inv.noOverwrite (h : Inv q t n) (hq : TxQueueSize q) (hroom : n < q / 2) : VirtioTxTrace.nextHead t.nic.txVq ∉ VirtioTxTrace.inFlight t.nic.txVq := by
  rw [(h.nextHead hq).1, h.mem_inFlight hq]
  rintro ⟨i, hi, heq⟩
  have hcount := h.count
  have := @mod_ne_of_lt (q / 2) (t.sent.length + i) t.posted.length (by omega) (by omega)
  omega

theorem Inv.step (h : Inv q t n) (hq : TxQueueSize q) {call : VirtioTxStep} (hroom : t.Room call) : ∃ n', Inv q (t.step call) n' := by
  cases call with
  | device =>
      cases n with
      | zero => exact ⟨0, h.device_empty.symm ▸ h⟩
      | succ n => exact ⟨n, (h.device hq).1⟩
  | send data =>
      cases data with
      | none => exact ⟨n, h⟩
      | some data =>
          by_cases hvalid : 0 < data.length ∧ data.length ≤ 1514 ∧ txQueueFull t.nic.txVq = false
          · have hlt := hroom hvalid.1 hvalid.2.1 hvalid.2.2
            rw [h.inFlight hq, h.size] at hlt
            exact ⟨n + 1, h.send hq hvalid.1 hvalid.2.1 hvalid.2.2 hlt⟩
          · refine ⟨n, ?_⟩
            simp only [VirtioTxTrace.step, send_refused hvalid]
            exact h

theorem Inv.noOverwrite_iff (h : Inv q t n) (hq : TxQueueSize q) {call : VirtioTxStep} : t.NoOverwrite call ↔ t.Room call := by
  cases call with
  | device => exact Iff.rfl
  | send data =>
      cases data with
      | none => exact ⟨fun _ => trivial, fun _ hret => absurd hret (by simp [virtioSendPacket])⟩
      | some data =>
          simp only [NoOverwrite, Room]
          rw [h.inFlight hq, h.size]
          constructor
          · intro hno hpos hlen hfull
            have hslots := h.slots
            by_contra hneg
            apply hno (by rw [h.send_eq hq hpos hlen hfull])
            -- all slots are in flight, and the next one is that of the oldest frame
            rw [(h.nextHead hq).1, h.mem_inFlight hq]
            have htwo := hq.two
            refine ⟨0, by omega, ?_⟩
            rw [h.count, show n = q / 2 by omega, Nat.add_mod_right, Nat.add_zero]
          · intro hroom hret
            by_cases hvalid : 0 < data.length ∧ data.length ≤ 1514 ∧ txQueueFull t.nic.txVq = false
            · exact h.noOverwrite hq (hroom hvalid.1 hvalid.2.1 hvalid.2.2)
            · rw [send_refused hvalid] at hret
              exact absurd hret (by simp)

end VirtioTxTrace

open VirtioTxTrace in
/-- No send of a run writes to a slot in flight exactly when every send that is admitted finds a slot free, and then every frame sent is the one that was posted. -/
theorem virtio_transmit_slots {q : Nat} (hpower : q.isPowerOfTwo) (hlo : 2 ≤ q) (hhi : q ≤ 256) (s : VirtioNet) {rxQsize : Nat} (hrx : rxQsize ≠ 0)
    (calls : List VirtioTxStep) :
    (Allowed NoOverwrite step (start s rxQsize q) calls ∧ Along Sound step (start s rxQsize q) calls) ↔ Allowed Room step (start s rxQsize q) calls := by
  have hq := txQueueSize_of_power hpower hlo hhi
  have hstart : ∃ n, Inv q (start s rxQsize q) n := ⟨0, start_inv hq s hrx⟩
  have hstep : ∀ t call, (∃ n, Inv q t n) → t.Room call → ∃ n, Inv q (t.step call) n := by
    rintro t call ⟨n, h⟩ hroom
    exact h.step hq hroom
  have hiff : Allowed NoOverwrite step (start s rxQsize q) calls ↔ Allowed Room step (start s rxQsize q) calls := by
    apply allowed_iff_allowed hstep _ _ hstart
    · rintro t call ⟨n, h⟩ hroom
      exact (h.noOverwrite_iff hq).mpr hroom
    · rintro t call ⟨n, h⟩ hroom hno
      exact hroom ((h.noOverwrite_iff hq).mp hno)
  constructor
  · exact fun h => hiff.mp h.1
  · intro h
    refine ⟨hiff.mpr h, along_of_allowed ?_ hstep hstart h⟩
    rintro t ⟨n, hinv⟩
    exact hinv.sound hq

open VirtioTxTrace in
/-- Two frames fill a queue of four. -/
theorem virtio_transmit_slots_four :
    let s : VirtioNet := ⟨false, virtqueueInit ⟨fun _ => ⟨.null, 0, 0, 0⟩, 0, fun _ => 0, 0, fun _ => ⟨0, 0⟩, 0, 0, 0⟩ 4,
      ⟨fun _ => ⟨.null, 0, 0, 0⟩, 0, fun _ => 0, 0, fun _ => ⟨0, 0⟩, 0, 0, 0⟩, fun _ _ => 0, fun _ _ => 0, fun _ => ⟨0, 0, 0, 0, 0, 0⟩⟩
    let calls := [VirtioTxStep.send (some [1]), .send (some [2]), .device, .send (some [3])]
    (Allowed NoOverwrite step (start s 4 4) calls ∧ Along Sound step (start s 4 4) calls) ↔ Allowed Room step (start s 4 4) calls :=
  virtio_transmit_slots ⟨2, rfl⟩ (by decide) (by decide) _ (by decide) _

open VirtioTxTrace in
/-- In a queue of eight the fifth send writes over the first frame, which has not been sent. -/
theorem virtio_slot_overwritten :
    let s : VirtioNet := ⟨false, virtqueueInit ⟨fun _ => ⟨.null, 0, 0, 0⟩, 0, fun _ => 0, 0, fun _ => ⟨0, 0⟩, 0, 0, 0⟩ 8,
      ⟨fun _ => ⟨.null, 0, 0, 0⟩, 0, fun _ => 0, 0, fun _ => ⟨0, 0⟩, 0, 0, 0⟩, fun _ _ => 0, fun _ _ => 0, fun _ => ⟨0, 0, 0, 0, 0, 0⟩⟩
    let four := run step (start s 8 8) [.send (some [1]), .send (some [2]), .send (some [3]), .send (some [4])]
    let calls := [VirtioTxStep.send (some [1]), .send (some [2]), .send (some [3]), .send (some [4]), .send (some [5]), .device]
    ((virtioSendPacket four.nic (some [5])).1 = 0 ∧ nextHead four.nic.txVq ∈ inFlight four.nic.txVq) ∧
      (run step (start s 8 8) calls).sent = [onWire [5]] ∧
      ¬ (Allowed NoOverwrite step (start s 8 8) calls ∧ Along Sound step (start s 8 8) calls) := by
  intro s four calls
  have hover : (virtioSendPacket four.nic (some [5])).1 = 0 ∧ nextHead four.nic.txVq ∈ inFlight four.nic.txVq := by decide +kernel
  have hsent : (run step (start s 8 8) calls).sent = [onWire [5]] := by decide +kernel
  exact ⟨hover, hsent, fun h => h.1.2.2.2.2.1 hover.1 hover.2⟩

end Tsukasa

import Tsukasa.Net.E1000
import Tsukasa.Lib.Ring
import Tsukasa.Lib.Run

/-!
# The e1000 transmit ring

To the device a ring whose tail has caught up with its head is empty. The driver asks the done bit of the descriptor at the tail, which is set also when all the other descriptors are waiting, so a burst as long as the ring fills it up to the head and none of its frames is sent. With one descriptor left free at every send the frames are sent in their order, each once.
-/

namespace Tsukasa

open Lib

namespace E1000Trace

/-- The number of frames accepted and not yet sent. -/
def pending (t : E1000Trace) : Nat := t.accepted.length - t.sent.length

/-- The ring is not full, frames are sent in their order, and those waiting are sent by as many steps of the device. -/
structure Sound (t : E1000Trace) : Prop where
  free : t.pending < e1000TxRingSize
  order : t.sent <+: t.accepted
  drains : (run step t (List.replicate t.pending .device)).sent = t.accepted

/-- A send that moves the tail leaves it apart from the head. -/
def TailApart (t : E1000Trace) : E1000Step → Prop
  | .send data => (t.step (.send data)).nic.tdt ≠ t.nic.tdt → (t.step (.send data)).nic.tdt ≠ (t.step (.send data)).nic.tdh
  | .device => True

/-- The descriptor behind the one to be written is not the head's. -/
def Room (t : E1000Trace) : E1000Step → Prop
  | .send (some data) => 0 < data.length → data.length ≤ 1518 → (t.nic.txTail + 1) % e1000TxRingSize ≠ t.nic.tdh
  | _ => True

/-- `n` descriptors from the head on are waiting, with the frames that have not been sent. -/
structure Inv (t : E1000Trace) (n : Nat) : Prop where
  initialized : t.nic.initialized = true
  room : n < e1000TxRingSize
  head : t.nic.tdh < e1000TxRingSize
  tail : t.nic.txTail = (t.nic.tdh + n) % e1000TxRingSize
  register : t.nic.tdt = t.nic.txTail
  buffers : ∀ i < e1000TxRingSize, (t.nic.txDesc i).bufferAddr = i
  waiting : ∀ j < e1000TxRingSize, (t.nic.txDesc ((t.nic.tdh + j) % e1000TxRingSize)).status % 2 = 0 ↔ j < n
  frames : t.accepted = t.sent ++ Ring.contents e1000TxRingSize t.nic.frame t.nic.tdh n

variable {t : E1000Trace} {n : Nat} {data : List UInt8}

theorem start_inv (s : E1000) : Inv (start s) 0 := by
  have hdesc : ∀ i < e1000TxRingSize, (start s).nic.txDesc i = ⟨i, 0, 0, 0, 1, 0, 0⟩ := fun i hi => if_pos hi
  refine ⟨rfl, by decide, show 0 < e1000TxRingSize by decide, rfl, rfl, fun i hi => ?_, fun j hj => ?_, rfl⟩
  · rw [hdesc i hi]
  · have hcell : ((start s).nic.tdh + j) % e1000TxRingSize = j := by
      rw [show (start s).nic.tdh = 0 from rfl, Nat.zero_add, Nat.mod_eq_of_lt hj]
    rw [hcell, hdesc j hj]
    simp

/-- A frame that is not too long is accepted and put at the tail. -/
theorem Inv.send_eq (h : Inv t n) (hpos : 0 < data.length) (hlen : data.length ≤ 1518) :
    e1000SendPacket t.nic (some data) = (0, { t.nic with
      txBuf := Function.update t.nic.txBuf t.nic.txTail fun i => if i < data.length then data.getD i 0 else t.nic.txBuf t.nic.txTail i
      txDesc := Function.update t.nic.txDesc t.nic.txTail { t.nic.txDesc t.nic.txTail with length := data.length, cmd := 0x0B, status := 0 }
      txTail := (t.nic.txTail + 1) % e1000TxRingSize
      tdt := (t.nic.txTail + 1) % e1000TxRingSize }) := by
  have hdone : ¬ (t.nic.txDesc t.nic.txTail).status % 2 = 0 := by
    rw [h.tail, h.waiting n h.room]
    exact Nat.lt_irrefl n
  have hvalid : ¬ ((!t.nic.initialized) = true ∨ data.length = 0 ∨ 1518 < data.length) := by
    simp only [h.initialized, Bool.not_true, Bool.false_eq_true, false_or]
    omega
  rw [e1000SendPacket, if_neg hvalid, if_neg hdone]

/-- Any other send is refused. -/
theorem send_refused (hbad : ¬ (0 < data.length ∧ data.length ≤ 1518)) : e1000SendPacket t.nic (some data) = (-1, t.nic) := by
  rw [e1000SendPacket, if_pos (by simp only [Bool.not_eq_true']; omega)]

theorem map_getD_range (data : List UInt8) (f : Nat → UInt8) :
    (List.range data.length).map (fun i => if i < data.length then data.getD i 0 else f i) = data := by
  apply List.ext_getElem
  · simp
  · intro i hi hi'
    rw [List.getElem_map, List.getElem_range, if_pos hi', List.getD_eq_getElem?_getD, List.getElem?_eq_getElem hi', Option.getD_some]

theorem Inv.send (h : Inv t n) (hpos : 0 < data.length) (hlen : data.length ≤ 1518) (hroom : n + 1 < e1000TxRingSize) :
    Inv (t.step (.send (some data))) (n + 1) := by
  have hsize : 0 < e1000TxRingSize := by decide
  have htail : t.nic.txTail < e1000TxRingSize := by
    rw [h.tail]
    exact Nat.mod_lt _ hsize
  have hcell : ∀ j < e1000TxRingSize, (t.nic.tdh + j) % e1000TxRingSize = t.nic.txTail ↔ j = n := by
    intro j hj
    rw [h.tail]
    exact ⟨fun heq => Ring.cell_inj hj h.room heq, fun heq => by rw [heq]⟩
  simp only [step, h.send_eq hpos hlen]
  refine ⟨h.initialized, hroom, h.head, ?_, rfl, ?_, ?_, ?_⟩
  · simp only
    rw [h.tail, Nat.mod_add_mod, Nat.add_assoc]
  · intro i hi
    simp only
    by_cases heq : i = t.nic.txTail
    · rw [heq, Function.update_self]
      exact h.buffers _ htail
    · rw [Function.update_of_ne heq]
      exact h.buffers i hi
  · intro j hj
    simp only
    by_cases heq : j = n
    · rw [(hcell j hj).mpr heq, Function.update_self]
      simp [heq]
    · rw [Function.update_of_ne (fun h' => heq ((hcell j hj).mp h')), h.waiting j hj]
      omega
  · simp only [if_true, Option.toList_some]
    rw [h.frames, List.append_assoc, ← Ring.contents_push h.room, ← h.tail]
    congr 1
    -- the buffer at the tail belongs to the descriptor at the tail only
    apply Ring.contents_congr
    intro j hj
    have hlt : (t.nic.tdh + j) % e1000TxRingSize < e1000TxRingSize := Nat.mod_lt _ hsize
    generalize (t.nic.tdh + j) % e1000TxRingSize = i at hlt
    by_cases heq : i = t.nic.txTail
    · rw [heq, Function.update_self]
      simp only [E1000.frame, Function.update_self, h.buffers _ htail]
      exact (map_getD_range data _).symm
    · rw [Function.update_of_ne heq]
      simp only [E1000.frame, Function.update_of_ne heq, h.buffers i hlt]

theorem Inv.device (h : Inv t (n + 1)) : (e1000Device t.nic).1 = some (t.nic.frame t.nic.tdh) ∧ Inv (t.step .device) n := by
  have hsize : 0 < e1000TxRingSize := by decide
  have hroom := h.room
  have happart : t.nic.tdh ≠ t.nic.tdt := by
    rw [h.register, h.tail]
    intro heq
    have hzero : (t.nic.tdh + 0) % e1000TxRingSize = (t.nic.tdh + (n + 1)) % e1000TxRingSize := by
      rw [Nat.add_zero, Nat.mod_eq_of_lt h.head]
      exact heq
    exact absurd (Ring.cell_inj hsize h.room hzero) (by omega)
  have hdevice : e1000Device t.nic = (some (t.nic.frame t.nic.tdh), { t.nic with
      txDesc := Function.update t.nic.txDesc t.nic.tdh { t.nic.txDesc t.nic.tdh with status := (t.nic.txDesc t.nic.tdh).status / 2 * 2 + 1 }
      tdh := (t.nic.tdh + 1) % e1000TxRingSize }) := if_neg happart
  have hnext : ∀ j, ((t.nic.tdh + 1) % e1000TxRingSize + j) % e1000TxRingSize = (t.nic.tdh + (j + 1)) % e1000TxRingSize := by
    intro j
    rw [Nat.mod_add_mod, Nat.add_assoc, Nat.add_comm 1 j]
  rw [hdevice]
  refine ⟨rfl, ?_⟩
  simp only [step, hdevice]
  refine ⟨h.initialized, Nat.lt_of_succ_lt hroom, Nat.mod_lt _ hsize, ?_, h.register, ?_, ?_, ?_⟩
  · simp only
    rw [hnext, h.tail]
  · intro i hi
    simp only
    by_cases heq : i = t.nic.tdh
    · rw [heq, Function.update_self]
      exact h.buffers _ h.head
    · rw [Function.update_of_ne heq]
      exact h.buffers i hi
  · intro j hj
    simp only
    rw [hnext]
    by_cases heq : (t.nic.tdh + (j + 1)) % e1000TxRingSize = t.nic.tdh
    · -- the descriptor just sent is the last one of the ring
      have hlast : j + 1 = e1000TxRingSize := by
        by_contra hneg
        have hzero : (t.nic.tdh + (j + 1)) % e1000TxRingSize = (t.nic.tdh + 0) % e1000TxRingSize := by
          rw [heq, Nat.add_zero, Nat.mod_eq_of_lt h.head]
        exact absurd (Ring.cell_inj (by omega) hsize hzero) (by omega)
      rw [heq, Function.update_self]
      simp only
      omega
    · have hlt : j + 1 < e1000TxRingSize := by
        by_contra hneg
        apply heq
        rw [show j + 1 = e1000TxRingSize by omega, Nat.add_mod_right, Nat.mod_eq_of_lt h.head]
      rw [Function.update_of_ne heq, h.waiting (j + 1) hlt]
      omega
  · simp only [Option.toList_some]
    rw [h.frames, Ring.contents_succ h.head, List.append_assoc, List.singleton_append]
    congr 2
    apply Ring.contents_congr
    intro j _
    by_cases heq : ((t.nic.tdh + 1) % e1000TxRingSize + j) % e1000TxRingSize = t.nic.tdh
    · simp only [E1000.frame, heq, Function.update_self]
    · simp only [E1000.frame, Function.update_of_ne heq]

theorem Inv.device_empty (h : Inv t 0) : t.step .device = t := by
  have htail : t.nic.tdh = t.nic.tdt := by
    rw [h.register, h.tail, Nat.add_zero, Nat.mod_eq_of_lt h.head]
  have hdevice : e1000Device t.nic = (none, t.nic) := if_pos htail
  simp only [step, hdevice, Option.toList_none, List.append_nil]

theorem Inv.pending (h : Inv t n) : t.pending = n := by
  rw [E1000Trace.pending, h.frames, List.length_append, Ring.length_contents, Nat.add_sub_cancel_left]

/-- The device sends all waiting frames. -/
theorem Inv.drain (h : Inv t n) : (run step t (List.replicate n .device)).sent = t.accepted := by
  induction n generalizing t with
  | zero =>
      rw [List.replicate_zero, run_nil, h.frames, Ring.contents_zero, List.append_nil]
  | succ n ih =>
      have haccepted : (t.step .device).accepted = t.accepted := rfl
      rw [List.replicate_succ, run_cons, ih h.device.2, haccepted]

theorem Inv.sound (h : Inv t n) : t.Sound := by
  refine ⟨by rw [h.pending]; exact h.room, ?_, ?_⟩
  · rw [h.frames]
    exact List.prefix_append _ _
  · rw [h.pending]
    exact h.drain

/-- With `n` descriptors waiting there is room exactly for one more that leaves one free. -/
theorem Inv.room_iff (h : Inv t n) : (t.nic.txTail + 1) % e1000TxRingSize ≠ t.nic.tdh ↔ n + 1 < e1000TxRingSize := by
  have hnext : (t.nic.txTail + 1) % e1000TxRingSize = (t.nic.tdh + (n + 1)) % e1000TxRingSize := by
    rw [h.tail, Nat.mod_add_mod, Nat.add_assoc]
  have hroom := h.room
  rw [hnext]
  constructor
  · intro hne
    by_contra hneg
    apply hne
    rw [show n + 1 = e1000TxRingSize by omega, Nat.add_mod_right, Nat.mod_eq_of_lt h.head]
  · intro hlt heq
    have hzero : (t.nic.tdh + (n + 1)) % e1000TxRingSize = (t.nic.tdh + 0) % e1000TxRingSize := by
      rw [heq, Nat.add_zero, Nat.mod_eq_of_lt h.head]
    exact absurd (Ring.cell_inj hlt (by omega) hzero) (by omega)

theorem Inv.step (h : Inv t n) {call : E1000Step} (hroom : t.Room call) : ∃ n', Inv (t.step call) n' := by
  cases call with
  | device =>
      cases n with
      | zero => exact ⟨0, h.device_empty.symm ▸ h⟩
      | succ n => exact ⟨n, h.device.2⟩
  | send data =>
      cases data with
      | none => exact ⟨n, h⟩
      | some data =>
          by_cases hvalid : 0 < data.length ∧ data.length ≤ 1518
          · exact ⟨n + 1, h.send hvalid.1 hvalid.2 (h.room_iff.mp (hroom hvalid.1 hvalid.2))⟩
          · refine ⟨n, ?_⟩
            simp only [E1000Trace.step, send_refused hvalid]
            exact h

/-- A send without room fills the ring. -/
theorem Inv.overrun (h : Inv t n) {call : E1000Step} (hroom : ¬ t.Room call) : ¬ (t.step call).Sound := by
  cases call with
  | device => exact absurd trivial hroom
  | send data =>
      cases data with
      | none => exact absurd trivial hroom
      | some data =>
          simp only [Room, Classical.not_imp] at hroom
          obtain ⟨hpos, hlen, hfull⟩ := hroom
          intro hsound
          have hfree := hsound.free
          have hlast : ¬ n + 1 < e1000TxRingSize := fun hlt => hfull (h.room_iff.mpr hlt)
          have hlength : (t.step (.send (some data))).pending = n + 1 := by
            simp only [E1000Trace.pending, E1000Trace.step, h.send_eq hpos hlen, if_true, Option.toList_some]
            rw [h.frames, List.append_assoc, List.length_append, List.length_append, Ring.length_contents, Nat.add_sub_cancel_left]
            rfl
          omega

theorem Inv.tailApart (h : Inv t n) {call : E1000Step} (hroom : t.Room call) : t.TailApart call := by
  cases call with
  | device => trivial
  | send data =>
      cases data with
      | none => exact fun hmoved => absurd rfl hmoved
      | some data =>
          by_cases hvalid : 0 < data.length ∧ data.length ≤ 1518
          · intro _
            simp only [E1000Trace.step, h.send_eq hvalid.1 hvalid.2]
            exact hroom hvalid.1 hvalid.2
          · intro hmoved
            simp only [E1000Trace.step, send_refused hvalid] at hmoved
            exact absurd rfl hmoved

end E1000Trace

open E1000Trace in
/-- The transmit ring works in a run exactly when every send of a frame finds two descriptors free. -/
theorem e1000_transmit_ring (s : E1000) (calls : List E1000Step) :
    (Along Sound step (start s) calls ∧ Allowed TailApart step (start s) calls) ↔ Allowed Room step (start s) calls := by
  have hstep : ∀ t call, (∃ n, Inv t n) → t.Room call → ∃ n, Inv (t.step call) n := by
    rintro t call ⟨n, h⟩ hroom
    exact h.step hroom
  have hiff : Along Sound step (start s) calls ↔ Allowed Room step (start s) calls := by
    apply along_iff_allowed _ hstep _ ⟨0, start_inv s⟩
    · rintro t ⟨n, h⟩
      exact h.sound
    · rintro t call ⟨n, h⟩ hroom
      exact h.overrun hroom
  constructor
  · exact fun h => hiff.mp h.1
  · intro h
    refine ⟨hiff.mpr h, allowed_of_invariant hstep ?_ ⟨0, start_inv s⟩ h⟩
    rintro t call ⟨n, hinv⟩ hroom
    exact hinv.tailApart hroom

open E1000Trace in
/-- A burst of 32 frames is accepted, and the device finds the ring empty. -/
theorem e1000_full_ring_lost :
    let s : E1000 := ⟨false, 0, fun _ => ⟨0, 0, 0, 0, 0, 0, 0⟩, fun _ _ => 0, 0, 0⟩
    let calls := List.replicate 32 (E1000Step.send (some [7]))
    (run step (start s) calls).accepted.length = 32 ∧ e1000Device (run step (start s) calls).nic = (none, (run step (start s) calls).nic) ∧
      ¬ (Along Sound step (start s) calls ∧ Allowed TailApart step (start s) calls) := by
  intro s calls
  have haccepted : (run step (start s) calls).accepted.length = 32 := by decide +kernel
  have hsent : (run step (start s) calls).sent.length = 0 := by decide +kernel
  have hempty : (run step (start s) calls).nic.tdh = (run step (start s) calls).nic.tdt := by decide +kernel
  refine ⟨haccepted, if_pos hempty, fun h => ?_⟩
  have hfree := h.1.last.free
  rw [E1000Trace.pending, haccepted, hsent] at hfree
  exact absurd hfree (by decide)

end Tsukasa

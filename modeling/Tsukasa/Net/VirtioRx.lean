import Tsukasa.Net.VirtioNet
import Tsukasa.Lib.Run
import Mathlib.Data.List.Perm.Basic
import Mathlib.Data.List.Nodup

/-!
# Reception on virtio-net

The descriptors of the receive queue go round between the driver and the device. The device takes posted heads in the order of the available ring and reports them in any order; a call of the driver reads the oldest report and posts its head again.
-/

namespace Tsukasa

open Lib

inductive VirtioRxStep where
  /-- The device takes the next head from the available ring. -/
  | take
  /-- The device fills the buffer of the `i`-th head that it holds and reports it. -/
  | report (i : Nat) (bytes : List UInt8)
  /-- A call of the driver, up to the payload. -/
  | receive (bufferSize : Nat)
  /-- The end of that call. -/
  | repost

/-- The card with its device's place in the available ring and the heads it holds, the head that a call of the driver holds, and the payloads so far on both sides. -/
structure VirtioRxTrace where
  nic : VirtioNet
  devIdx : Nat
  taken : List Nat
  held : Option Nat
  delivered : List (List UInt8)
  returned : List (Nat × List UInt8)

/-- The payload that a buffer carries. -/
def rxPayload (bytes : List UInt8) : Option (List UInt8) :=
  if bytes.length ≤ virtioNetHdrSize then none else some (bytes.drop virtioNetHdrSize)

namespace VirtioRxTrace

/-- A step that a party cannot take changes nothing. -/
def step (t : VirtioRxTrace) : VirtioRxStep → VirtioRxTrace
  | .take =>
      let rxq := t.nic.rxVq
      if t.devIdx = rxq.availIdx then t
      else { t with devIdx := wrap16 (t.devIdx + 1), taken := t.taken ++ [rxq.availRing (t.devIdx % rxq.qSize)] }
  | .report i bytes =>
      match t.taken[i]? with
      | none => t
      | some head =>
          if 2048 < bytes.length then t
          else { t with
            nic := virtioRxDevice t.nic head bytes
            taken := t.taken.eraseIdx i
            delivered := t.delivered ++ (rxPayload bytes).toList }
  | .receive bufferSize =>
      if t.held.isSome then t
      else
        match virtioTakeUsed t.nic bufferSize with
        | (none, nic) => { t with nic := nic }
        | (some (head, payload), nic) =>
            { t with nic := nic, held := some head, returned := if payload = [] then t.returned else t.returned ++ [(bufferSize, payload)] }
  | .repost =>
      match t.held with
      | none => t
      | some head => { t with nic := virtioRepost t.nic head, held := none }

def start (s : VirtioNet) (q txQsize : Nat) : VirtioRxTrace := ⟨(virtioAttach s q txQsize).2, 0, [], none, [], []⟩

/-- The heads in the available ring that the device has not taken. -/
def outstanding (t : VirtioRxTrace) : List Nat := ringCells t.nic.rxVq.availRing t.nic.rxVq.qSize t.devIdx t.nic.rxVq.availIdx

/-- The entries of the used ring that the driver has not read. -/
def unread (rxq : Virtqueue) : List VirtqUsedElem := ringCells rxq.usedRing rxq.qSize rxq.lastUsedIdx rxq.usedIdx

/-- The payload behind an entry of the used ring. -/
def rxFrame (s : VirtioNet) (elem : VirtqUsedElem) : Option (List UInt8) :=
  rxPayload ((List.range elem.len).map (s.rxBuffers elem.id))

/-- Every descriptor is with one party and there once, and what the device has delivered is what calls have returned, cut to their buffers, and what the used ring still holds. -/
structure Sound (q : Nat) (t : VirtioRxTrace) : Prop where
  owned : ((t.outstanding ++ t.taken) ++ ((unread t.nic.rxVq).map VirtqUsedElem.id ++ t.held.toList)).Perm (List.range q)
  room : t.outstanding.length ≤ q
  order : List.Forall₂ (fun r payload => r.2 = payload.take r.1) t.returned (t.delivered.take t.returned.length)
  rest : t.delivered.drop t.returned.length = (unread t.nic.rxVq).filterMap (rxFrame t.nic)

/-- A report as the list of all of them keeps it: the head and the bytes in its buffer. -/
structure RxReport where
  head : Nat
  bytes : List UInt8

def payloads (reports : List RxReport) : List (List UInt8) := reports.filterMap fun r => rxPayload r.bytes

/-- The run so far has posted the heads `posted` and reported `reports`; the device has taken `done` of the first and the driver has read `read` of the others. -/
structure Inv (q : Nat) (t : VirtioRxTrace) (posted : List Nat) (done : Nat) (reports : List RxReport) (read : Nat) : Prop where
  size : t.nic.rxVq.qSize = q
  avail : t.nic.rxVq.availIdx = wrap16 posted.length
  dev : t.devIdx = wrap16 done
  done_le : done ≤ posted.length
  used : t.nic.rxVq.usedIdx = wrap16 reports.length
  last : t.nic.rxVq.lastUsedIdx = wrap16 read
  read_le : read ≤ reports.length
  posts : ∀ j head, done ≤ j → posted[j]? = some head → t.nic.rxVq.availRing (j % q) = head
  entries : ∀ j r, read ≤ j → reports[j]? = some r → t.nic.rxVq.usedRing (j % q) = ⟨r.head, r.bytes.length⟩
  buffers : ∀ r ∈ reports.drop read, ∀ i < r.bytes.length, t.nic.rxBuffers r.head i = r.bytes.getD i 0
  owned : ((posted.drop done ++ t.taken) ++ ((reports.drop read).map RxReport.head ++ t.held.toList)).Perm (List.range q)
  delivered : t.delivered = payloads reports
  returned : List.Forall₂ (fun r payload => r.2 = payload.take r.1) t.returned (payloads (reports.take read))

variable {q done read : Nat} {t : VirtioRxTrace} {posted : List Nat} {reports : List RxReport}

theorem Inv.count (h : Inv q t posted done reports read) :
    (posted.length - done) + t.taken.length + ((reports.length - read) + t.held.toList.length) = q := by
  have hlength := h.owned.length_eq
  simpa [Nat.add_assoc] using hlength

theorem Inv.nodup (h : Inv q t posted done reports read) :
    ((posted.drop done ++ t.taken) ++ ((reports.drop read).map RxReport.head ++ t.held.toList)).Nodup :=
  h.owned.nodup_iff.mpr List.nodup_range

theorem rxFrame_eq {s : VirtioNet} {r : RxReport} (hbytes : ∀ i < r.bytes.length, s.rxBuffers r.head i = r.bytes.getD i 0) :
    (List.range r.bytes.length).map (s.rxBuffers r.head) = r.bytes := by
  apply List.ext_getElem
  · simp
  · intro i hi hi'
    rw [List.getElem_map, List.getElem_range, hbytes i hi', List.getD_eq_getElem?_getD, List.getElem?_eq_getElem hi', Option.getD_some]

theorem Inv.sound (h : Inv q t posted done reports read) (hdvd : q ∣ 2 ^ 16) (hsmall : q ≤ 256) : t.Sound q := by
  have hcount := h.count
  have houtstanding : t.outstanding = posted.drop done := by
    rw [outstanding, h.dev, h.avail, h.size]
    exact ringCells_eq_drop hdvd h.done_le (by omega) h.posts
  have hunread : unread t.nic.rxVq = (reports.drop read).map fun r => ⟨r.head, r.bytes.length⟩ := by
    rw [unread, h.last, h.used, h.size, List.map_drop, ← @List.length_map _ _ reports fun r => (⟨r.head, r.bytes.length⟩ : VirtqUsedElem)]
    apply ringCells_eq_drop hdvd
    · rw [List.length_map]
      exact h.read_le
    · rw [List.length_map]
      omega
    · intro j elem hj helem
      rw [List.getElem?_map, Option.map_eq_some_iff] at helem
      obtain ⟨r, hr, rfl⟩ := helem
      exact h.entries j r hj hr
  have hsplit : payloads reports = payloads (reports.take read) ++ payloads (reports.drop read) := by
    rw [payloads, payloads, payloads, ← List.filterMap_append, List.take_append_drop]
  have hlength : t.returned.length = (payloads (reports.take read)).length := h.returned.length_eq
  refine ⟨?_, ?_, ?_, ?_⟩
  · rw [houtstanding, hunread, List.map_map]
    exact h.owned
  · rw [houtstanding, List.length_drop]
    omega
  · rw [h.delivered, hsplit, hlength, List.take_left]
    exact h.returned
  · rw [h.delivered, hsplit, hlength, List.drop_left, hunread, List.filterMap_map]
    apply List.filterMap_congr
    intro r hr
    rw [Function.comp_apply, rxFrame, rxFrame_eq (h.buffers r hr)]

theorem start_inv (hq : q ≠ 0) (hsmall : q ≤ 256) (s : VirtioNet) (txQsize : Nat) : Inv q (start s q txQsize) (List.range q) 0 [] 0 := by
  have hrx : (virtioAttach s q txQsize).2.rxVq = rxSetup s.rxVq q := by
    rw [virtioAttach, if_neg hq, Nat.min_eq_left hsmall]
    cases txQsize <;> rfl
  have hqueue : (start s q txQsize).nic.rxVq = rxSetup s.rxVq q := hrx
  have hwrap : wrap16 q = q := Nat.mod_eq_of_lt (by omega)
  refine ⟨?_, ?_, rfl, Nat.zero_le _, ?_, ?_, Nat.zero_le _, ?_, ?_, ?_, ?_, rfl, List.Forall₂.nil⟩
  · rw [hqueue, rxSetup, virtqueueInit, if_neg hq]
  · rw [hqueue, rxSetup, List.length_range, hwrap]
  · rw [hqueue, rxSetup, virtqueueInit, if_neg hq]
    rfl
  · rw [hqueue, rxSetup, virtqueueInit, if_neg hq]
    rfl
  · intro j head _ hj
    obtain ⟨hlt, rfl⟩ := List.getElem?_eq_some_iff.mp hj
    rw [List.length_range] at hlt
    rw [hqueue, rxSetup, List.getElem_range, Nat.mod_eq_of_lt hlt]
    exact if_pos hlt
  · intro j r _ hj
    exact absurd hj (by simp)
  · intro r hr
    exact absurd hr (by simp)
  · simp [start]

theorem Inv.take (h : Inv q t posted done reports read) (hdvd : q ∣ 2 ^ 16) :
    ∃ done', Inv q (t.step .take) posted done' reports read := by
  have hcount := h.count
  have hle := h.done_le
  by_cases heq : t.devIdx = t.nic.rxVq.availIdx
  · refine ⟨done, ?_⟩
    simp only [step, if_pos heq]
    exact h
  · have hlt : done < posted.length := by
      have hne : done ≠ posted.length := by
        rintro rfl
        exact heq (by rw [h.dev, h.avail])
      omega
    have hcell : t.nic.rxVq.availRing (t.devIdx % t.nic.rxVq.qSize) = posted[done] := by
      rw [h.dev, h.size, wrap16_mod hdvd]
      exact h.posts done _ le_rfl (List.getElem?_eq_getElem hlt)
    refine ⟨done + 1, ?_⟩
    simp only [step, if_neg heq, hcell]
    refine { h with dev := ?_, done_le := hlt, posts := ?_, owned := ?_ }
    · rw [h.dev, wrap16_succ]
    · intro j head hj
      exact h.posts j head (by omega)
    · refine (List.Perm.append_right _ ?_).trans h.owned
      rw [List.drop_eq_getElem_cons hlt, ← List.append_assoc]
      exact List.perm_append_singleton _ _

theorem Inv.report (h : Inv q t posted done reports read) {i head : Nat} {bytes : List UInt8} (hdvd : q ∣ 2 ^ 16)
    (hhead : t.taken[i]? = some head) (hlen : ¬ 2048 < bytes.length) :
    Inv q (t.step (.report i bytes)) posted done (reports ++ [⟨head, bytes⟩]) read := by
  have hcount := h.count
  have hread := h.read_le
  obtain ⟨hi, hget⟩ := List.getElem?_eq_some_iff.mp hhead
  have hcell : t.nic.rxVq.usedIdx % t.nic.rxVq.qSize = reports.length % q := by rw [h.used, h.size, wrap16_mod hdvd]
  -- the buffer of a head that the device holds is not one of those it has reported
  have hapart : ∀ r ∈ reports.drop read, r.head ≠ head := by
    intro r hr heq
    have hdisjoint := List.disjoint_of_nodup_append h.nodup
    apply hdisjoint (List.mem_append_right _ (List.mem_of_getElem? hhead))
    rw [← heq]
    exact List.mem_append_left _ (List.mem_map_of_mem hr)
  simp only [step, hhead, if_neg hlen, virtioRxDevice, hcell]
  refine { h with used := ?_, read_le := ?_, entries := ?_, buffers := ?_, owned := ?_, delivered := ?_, returned := ?_ }
  · rw [h.used, wrap16_succ, List.length_append, List.length_singleton]
  · rw [List.length_append]
    omega
  · intro j r hj hr
    rcases Nat.lt_or_ge j reports.length with hlt | hge
    · rw [List.getElem?_append_left hlt] at hr
      have hne : j % q ≠ reports.length % q := mod_ne_of_lt hlt (by omega)
      simp only [Function.update_of_ne hne]
      exact h.entries j r hj hr
    · have hj' := (List.getElem?_eq_some_iff.mp hr).1
      rw [List.length_append, List.length_singleton] at hj'
      obtain rfl : j = reports.length := by omega
      rw [List.getElem?_concat_length] at hr
      obtain rfl := Option.some.inj hr
      exact Function.update_self _ _ _
  · intro r hr i hlt
    rw [List.drop_append_of_le_length hread, List.mem_append, List.mem_singleton] at hr
    rcases hr with hr | rfl
    · simp only [Function.update_of_ne (hapart r hr)]
      exact h.buffers r hr i hlt
    · simp only [Function.update_self]
      rw [if_pos hlt]
  · rw [List.drop_append_of_le_length hread, List.map_append, List.map_singleton]
    refine List.Perm.trans ?_ h.owned
    have htaken : (t.taken.eraseIdx i ++ [head]).Perm t.taken := by
      rw [← hget]
      exact (List.perm_append_singleton _ _).trans (List.getElem_cons_eraseIdx_perm hi)
    have hmove : (posted.drop done ++ t.taken.eraseIdx i ++ ((reports.drop read).map RxReport.head ++ [head] ++ t.held.toList)).Perm
        (posted.drop done ++ (t.taken.eraseIdx i ++ [head]) ++ ((reports.drop read).map RxReport.head ++ t.held.toList)) := by
      rw [List.perm_iff_count]
      intro a
      simp only [List.count_append]
      omega
    exact hmove.trans ((htaken.append_left _).append_right _)
  · rw [h.delivered, payloads, payloads, List.filterMap_append]
    simp [List.filterMap_cons]
    cases rxPayload bytes <;> rfl
  · rw [List.take_append_of_le_length hread]
    exact h.returned

theorem Inv.receive_eq (h : Inv q t posted done reports read) {bufferSize : Nat} (hdvd : q ∣ 2 ^ 16) (hlt : read < reports.length)
    (hinit : t.nic.initialized = true) (hbuffer : bufferSize ≠ 0) (hne : t.nic.rxVq.lastUsedIdx ≠ t.nic.rxVq.usedIdx) :
    virtioTakeUsed t.nic bufferSize =
      (some (reports[read].head, ((rxPayload reports[read].bytes).getD []).take bufferSize),
        { t.nic with rxVq := { t.nic.rxVq with lastUsedIdx := wrap16 (read + 1) } }) := by
  have hcell : t.nic.rxVq.usedRing (t.nic.rxVq.lastUsedIdx % t.nic.rxVq.qSize) = ⟨reports[read].head, reports[read].bytes.length⟩ := by
    rw [h.last, h.size, wrap16_mod hdvd]
    exact h.entries read _ le_rfl (List.getElem?_eq_getElem hlt)
  have hbytes := h.buffers reports[read] (by rw [List.drop_eq_getElem_cons hlt]; exact List.mem_cons_self)
  have hnext : wrap16 (t.nic.rxVq.lastUsedIdx + 1) = wrap16 (read + 1) := by rw [h.last, wrap16_succ]
  rw [virtioTakeUsed, if_neg (by simp [hinit, hbuffer]), if_neg hne]
  simp only [hcell, hnext, rxPayload]
  by_cases hshort : reports[read].bytes.length ≤ virtioNetHdrSize
  · rw [if_pos hshort, if_pos hshort, Option.getD_none, List.take_nil]
  · rw [if_neg hshort, if_neg hshort, Option.getD_some]
    simp only [Prod.mk.injEq, Option.some.injEq, true_and, and_true]
    apply List.ext_getElem
    · simp [Nat.min_comm]
    · intro i hi hi'
      simp only [List.length_map, List.length_range] at hi
      simp only [List.getElem_map, List.getElem_range, List.getElem_take, List.getElem_drop]
      rw [hbytes _ (by omega), List.getD_eq_getElem?_getD, List.getElem?_eq_getElem (by omega), Option.getD_some]

theorem Inv.receive (h : Inv q t posted done reports read) (bufferSize : Nat) (hdvd : q ∣ 2 ^ 16) :
    ∃ read', Inv q (t.step (.receive bufferSize)) posted done reports read' := by
  have hcount := h.count
  have hread := h.read_le
  by_cases hheld : t.held.isSome
  · refine ⟨read, ?_⟩
    simp only [step, if_pos hheld]
    exact h
  · have hnone : t.held = none := by simpa using hheld
    by_cases hidle : (!t.nic.initialized) = true ∨ bufferSize = 0 ∨ t.nic.rxVq.lastUsedIdx = t.nic.rxVq.usedIdx
    · have hskip : virtioTakeUsed t.nic bufferSize = (none, t.nic) := by
        rw [virtioTakeUsed]
        split
        · rfl
        · rename_i hvalid
          rw [if_pos]
          tauto
      refine ⟨read, ?_⟩
      simp only [step, if_neg hheld, hskip]
      exact h
    · simp only [not_or, Bool.not_eq_true, Bool.not_eq_false'] at hidle
      obtain ⟨hinit, hbuffer, hne⟩ := hidle
      have hlt : read < reports.length := by
        have : read ≠ reports.length := by
          rintro rfl
          exact hne (by rw [h.last, h.used])
        omega
      refine ⟨read + 1, ?_⟩
      simp only [step, if_neg hheld, h.receive_eq hdvd hlt hinit hbuffer hne]
      refine { h with last := rfl, read_le := hlt, entries := ?_, buffers := ?_, owned := ?_, returned := ?_ }
      · intro j r hj
        exact h.entries j r (by omega)
      · intro r hr
        rw [List.drop_add_one_eq_tail_drop] at hr
        exact h.buffers r (List.mem_of_mem_tail hr)
      · refine (List.Perm.append_left _ ?_).trans h.owned
        rw [List.drop_eq_getElem_cons hlt, hnone, List.map_cons, Option.toList_none, List.append_nil, Option.toList_some]
        exact List.perm_append_singleton _ _
      · rw [List.take_add_one, List.getElem?_eq_getElem hlt, Option.toList_some, payloads, List.filterMap_append]
        cases hpayload : rxPayload reports[read].bytes with
        | none => simpa [payloads, hpayload] using h.returned
        | some payload =>
            have hlong : payload ≠ [] := by
              rw [rxPayload] at hpayload
              split at hpayload
              · exact absurd hpayload (by simp)
              · obtain rfl := Option.some.inj hpayload
                rename_i hlen
                rw [Ne, List.drop_eq_nil_iff]
                exact hlen
            have hnonempty : payload.take bufferSize ≠ [] := by simp [List.take_eq_nil_iff, hlong, hbuffer]
            rw [Option.getD_some, if_neg hnonempty]
            apply List.rel_append h.returned
            simp [hpayload]

theorem Inv.repost (h : Inv q t posted done reports read) {head : Nat} (hdvd : q ∣ 2 ^ 16) (hsmall : q ≤ 256) (hheld : t.held = some head) :
    Inv q (t.step .repost) (posted ++ [head]) done reports read := by
  have hcount := h.count
  have hdone := h.done_le
  have hmem : head ∈ List.range q := by
    apply h.owned.mem_iff.mp
    simp [hheld]
  have hwrap : wrap16 head = head := Nat.mod_eq_of_lt (by have := List.mem_range.mp hmem; omega)
  have hcell : t.nic.rxVq.availIdx % t.nic.rxVq.qSize = posted.length % q := by rw [h.avail, h.size, wrap16_mod hdvd]
  rw [hheld, Option.toList_some, List.length_singleton] at hcount
  simp only [step, hheld, virtioRepost, hwrap, hcell]
  refine { h with avail := ?_, done_le := ?_, posts := ?_, owned := ?_ }
  · rw [h.avail, wrap16_succ, List.length_append, List.length_singleton]
  · rw [List.length_append]
    omega
  · intro j head' hj hhead'
    rcases Nat.lt_or_ge j posted.length with hlt | hge
    · rw [List.getElem?_append_left hlt] at hhead'
      have hne : j % q ≠ posted.length % q := mod_ne_of_lt hlt (by omega)
      simp only [Function.update_of_ne hne]
      exact h.posts j head' hj hhead'
    · have hj' := (List.getElem?_eq_some_iff.mp hhead').1
      rw [List.length_append, List.length_singleton] at hj'
      obtain rfl : j = posted.length := by omega
      rw [List.getElem?_concat_length] at hhead'
      obtain rfl := Option.some.inj hhead'
      exact Function.update_self _ _ _
  · rw [List.drop_append_of_le_length hdone]
    refine List.Perm.trans ?_ h.owned
    rw [hheld, Option.toList_none, Option.toList_some, List.perm_iff_count]
    intro a
    simp only [List.count_append, List.count_nil]
    omega

/-- What every step of either party keeps. -/
theorem Inv.step (h : Inv q t posted done reports read) (hdvd : q ∣ 2 ^ 16) (hsmall : q ≤ 256) (call : VirtioRxStep) :
    ∃ posted' done' reports' read', Inv q (t.step call) posted' done' reports' read' := by
  cases call with
  | take =>
      obtain ⟨done', hnext⟩ := h.take hdvd
      exact ⟨_, done', _, _, hnext⟩
  | report i bytes =>
      cases hhead : t.taken[i]? with
      | none =>
          refine ⟨posted, done, reports, read, ?_⟩
          simp only [VirtioRxTrace.step, hhead]
          exact h
      | some head =>
          by_cases hlen : 2048 < bytes.length
          · refine ⟨posted, done, reports, read, ?_⟩
            simp only [VirtioRxTrace.step, hhead, if_pos hlen]
            exact h
          · exact ⟨_, _, _, _, h.report hdvd hhead hlen⟩
  | receive bufferSize =>
      obtain ⟨read', hnext⟩ := h.receive bufferSize hdvd
      exact ⟨_, _, _, read', hnext⟩
  | repost =>
      cases hheld : t.held with
      | none =>
          refine ⟨posted, done, reports, read, ?_⟩
          simp only [VirtioRxTrace.step, hheld]
          exact h
      | some head => exact ⟨_, _, _, _, h.repost hdvd hsmall hheld⟩

end VirtioRxTrace

open VirtioRxTrace in
/-- In every run of the driver and the device each descriptor is with one of them, and calls return what the device delivers. -/
theorem virtio_receive_ring {q : Nat} (hpower : q.isPowerOfTwo) (hhi : q ≤ 256) (s : VirtioNet) (txQsize : Nat) (calls : List VirtioRxStep) :
    Along (Sound q) step (start s q txQsize) calls := by
  obtain ⟨k, hk, rfl⟩ := queue_size_power hpower hhi
  have hdvd : 2 ^ k ∣ 2 ^ 16 := Nat.pow_dvd_pow 2 (by omega)
  have hne : 2 ^ k ≠ 0 := Nat.pos_iff_ne_zero.mp (Nat.two_pow_pos k)
  refine @along_of_allowed _ _ (fun _ _ => True) _ (fun t => ∃ posted done reports read, Inv (2 ^ k) t posted done reports read) _ ?_ ?_ _
    ⟨_, _, _, _, start_inv hne hhi s txQsize⟩ calls (allowed_of_forall fun _ _ _ => trivial)
  · rintro t ⟨posted, done, reports, read, h⟩
    exact h.sound hdvd hhi
  · rintro t call ⟨posted, done, reports, read, h⟩ -
    exact h.step hdvd hhi call

open VirtioRxTrace in
/-- A frame and a runt come in over a queue of two. -/
theorem virtio_receive_ring_two :
    let s : VirtioNet := ⟨false, virtqueueInit ⟨fun _ => ⟨.null, 0, 0, 0⟩, 0, fun _ => 0, 0, fun _ => ⟨0, 0⟩, 0, 0, 0⟩ 2,
      ⟨fun _ => ⟨.null, 0, 0, 0⟩, 0, fun _ => 0, 0, fun _ => ⟨0, 0⟩, 0, 0, 0⟩, fun _ _ => 0, fun _ _ => 0, fun _ => ⟨0, 0, 0, 0, 0, 0⟩⟩
    Along (Sound 2) step (start s 2 2)
      [.take, .take, .report 1 (List.replicate 20 5), .report 0 [1], .receive 1500, .repost, .take, .receive 1500, .repost] :=
  virtio_receive_ring ⟨1, rfl⟩ (by decide) _ 2 _

end Tsukasa

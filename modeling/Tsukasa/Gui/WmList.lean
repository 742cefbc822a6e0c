import Tsukasa.Gui.Wm
import Tsukasa.Lib.DoublyLinked
import Tsukasa.Lib.Run

/-!
# The stacking list of windows

Whatever windows are created, destroyed and raised, and whatever the mouse does, the z-list holds each window of the pool that is in use once, its two directions agree, its last window is the active one, and a drag or a resize in progress is of a listed window.
-/

namespace Tsukasa

open Lib.Linked

/-- The z-list is `l`, in both directions. -/
def Wm.ZList (s : Wm) (l : List Nat) : Prop :=
  IsDList (fun i => (s.windows i).next) (fun i => (s.windows i).prev) s.zlistHead s.zlistTail l

/-- The z-list is `l`, the windows in use once each, its last window is the active one, and the windows that the mouse holds are listed. -/
structure ZListed (s : Wm) (l : List Nat) : Prop where
  linked : s.ZList l
  members : ∀ i, i ∈ l ↔ i < wmMaxWindows ∧ s.used i = true
  active : ∀ i ∈ l, (s.windows i).has wmFlagActive = true ↔ l.getLast? = some i
  drag : ∀ i, s.dragWin = some i → i ∈ l
  resize : ∀ i, s.resizeWin = some i → i ∈ l

/-- The stacking list is consistent. -/
def StackOk (s : Wm) : Prop := ∃ l, ZListed s l

variable {fb : FbInfo} {s s' : Wm} {l : List Nat} {i : Nat}

/-! ### Changes that leave the list alone -/

/-- The list and the windows held are as they were. -/
structure SameLinks (s s' : Wm) : Prop where
  next : ∀ i, (s'.windows i).next = (s.windows i).next
  prev : ∀ i, (s'.windows i).prev = (s.windows i).prev
  head : s'.zlistHead = s.zlistHead
  tail : s'.zlistTail = s.zlistTail
  used : s'.used = s.used
  drag : s'.dragWin = s.dragWin
  resize : s'.resizeWin = s.resizeWin

/-- The flag of the active window as well. -/
structure SameStack (s s' : Wm) : Prop extends SameLinks s s' where
  active : ∀ i, (s'.windows i).has wmFlagActive = (s.windows i).has wmFlagActive

theorem SameLinks.of_setWindow {w : WmWindow} (hnext : w.next = (s.windows i).next) (hprev : w.prev = (s.windows i).prev) :
    SameLinks s (s.setWindow i w) := by
  refine ⟨fun j => ?_, fun j => ?_, rfl, rfl, rfl, rfl, rfl⟩
  · rw [Wm.setWindow_windows]
    split
    · rename_i hj
      rw [hnext, hj]
    · rfl
  · rw [Wm.setWindow_windows]
    split
    · rename_i hj
      rw [hprev, hj]
    · rfl

theorem Wm.ZList.same (h : s.ZList l) (hsame : SameLinks s s') : s'.ZList l := by
  rw [ZList, hsame.head, hsame.tail]
  exact IsDList.congr h (fun i _ => hsame.next i) fun i _ => hsame.prev i

namespace SameStack

theorem refl (s : Wm) : SameStack s s := ⟨⟨fun _ => rfl, fun _ => rfl, rfl, rfl, rfl, rfl, rfl⟩, fun _ => rfl⟩

theorem trans {s'' : Wm} (h : SameStack s s') (h' : SameStack s' s'') : SameStack s s'' where
  next i := (h'.next i).trans (h.next i)
  prev i := (h'.prev i).trans (h.prev i)
  active i := (h'.active i).trans (h.active i)
  head := h'.head.trans h.head
  tail := h'.tail.trans h.tail
  used := h'.used.trans h.used
  drag := h'.drag.trans h.drag
  resize := h'.resize.trans h.resize

theorem of_setWindow {w : WmWindow} (hnext : w.next = (s.windows i).next) (hprev : w.prev = (s.windows i).prev)
    (hactive : w.has wmFlagActive = (s.windows i).has wmFlagActive) : SameStack s (s.setWindow i w) := by
  refine ⟨SameLinks.of_setWindow hnext hprev, fun j => ?_⟩
  rw [Wm.setWindow_windows]
  split
  · rename_i hj
    rw [hactive, hj]
  · rfl

end SameStack

theorem ZListed.same (h : ZListed s l) (hsame : SameStack s s') : ZListed s' l := by
  refine ⟨h.linked.same hsame.toSameLinks, fun i => ?_, fun i hi => ?_, fun i hi => ?_, fun i hi => ?_⟩
  · rw [hsame.used]
    exact h.members i
  · rw [hsame.active]
    exact h.active i hi
  · rw [hsame.drag] at hi
    exact h.drag i hi
  · rw [hsame.resize] at hi
    exact h.resize i hi

theorem SameStack.markRect (fb : FbInfo) (s : Wm) (x y w h : Int) : SameStack s (s.markRect fb x y w h) :=
  ⟨⟨fun _ => rfl, fun _ => rfl, rfl, rfl, rfl, rfl, rfl⟩, fun _ => rfl⟩

theorem SameStack.markWindowDirty (fb : FbInfo) (s : Wm) (i : Nat) : SameStack s (wmMarkWindowDirty fb s i) := SameStack.markRect fb s _ _ _ _

theorem SameStack.markMoved (fb : FbInfo) (s : Wm) (i : Nat) (x y w h : Int) : SameStack s (markMoved fb s i x y w h) :=
  (SameStack.markRect fb s _ _ _ _).trans (SameStack.markWindowDirty fb _ i)

theorem SameStack.dispatch (fb : FbInfo) (s : Wm) (ev : WmEvent) : SameStack s (dispatchToWindow fb s ev).1 := by
  rw [dispatchToWindow]
  split
  · exact SameStack.refl s
  · exact SameStack.markWindowDirty fb s ev.win

/-- A flag other than the active one is set. -/
theorem SameStack.setFlag (s : Wm) (i : Nat) (flag : BitVec 32) (hflag : flag &&& wmFlagActive = 0) : SameStack s (s.setFlag i flag) := by
  refine SameStack.of_setWindow rfl rfl ?_
  simp only [WmWindow.has]
  have hsame : ((s.windows i).flags ||| flag) &&& wmFlagActive = (s.windows i).flags &&& wmFlagActive := by
    have hdistrib : ((s.windows i).flags ||| flag) &&& wmFlagActive = ((s.windows i).flags &&& wmFlagActive) ||| (flag &&& wmFlagActive) := by
      ext j hj
      simp only [BitVec.getElem_and, BitVec.getElem_or]
      cases (s.windows i).flags[j] <;> cases flag[j] <;> cases wmFlagActive[j] <;> rfl
    rw [hdistrib, hflag]
    simp
  rw [hsame]

theorem SameStack.clearFlag (s : Wm) (i : Nat) (flag : BitVec 32) (hflag : ~~~flag &&& wmFlagActive = wmFlagActive) :
    SameStack s (s.clearFlag i flag) := by
  refine SameStack.of_setWindow rfl rfl ?_
  simp only [WmWindow.has, BitVec.and_assoc, hflag]

/-! ### The list operations -/

theorem zlistPushTop_windows (s : Wm) (i j : Nat) : (zlistPushTop s i).windows j = { s.windows j with
    next := if s.zlistTail = some j then some i else if j = i then none else (s.windows j).next
    prev := if j = i then s.zlistTail else (s.windows j).prev } := by
  rw [zlistPushTop]
  cases htail : s.zlistTail with
  | none =>
      simp only [Wm.setWindow, htail, Function.update_apply]
      by_cases hj : j = i
      · subst hj
        simp
      · simp [hj]
  | some t =>
      simp only [Wm.setWindow, htail, Function.update_apply]
      by_cases hjt : j = t
      · subst hjt
        by_cases hj : j = i
        · subst hj
          simp
        · simp [hj]
      · have hne : t ≠ j := Ne.symm hjt
        by_cases hj : j = i
        · subst hj
          simp [hjt, hne]
        · simp [hjt, hne, hj]

theorem zlistPushTop_ends (s : Wm) (i : Nat) :
    (zlistPushTop s i).zlistHead = (if s.zlistTail = none then some i else s.zlistHead) ∧ (zlistPushTop s i).zlistTail = some i ∧
      (zlistPushTop s i).used = s.used ∧ (zlistPushTop s i).dragWin = s.dragWin ∧ (zlistPushTop s i).resizeWin = s.resizeWin := by
  simp only [zlistPushTop, Wm.setWindow]
  cases s.zlistTail <;> simp

theorem zlistRemove_windows (s : Wm) (i j : Nat) (hprev : (s.windows i).prev ≠ some i) (hnext : (s.windows i).next ≠ some i) :
    (zlistRemove s i).windows j = { s.windows j with
      next := if j = i then none else if (s.windows i).prev = some j then (s.windows i).next else (s.windows j).next
      prev := if j = i then none else if (s.windows i).next = some j then (s.windows i).prev else (s.windows j).prev } := by
  rw [zlistRemove]
  cases hp : (s.windows i).prev with
  | none =>
      cases hn : (s.windows i).next with
      | none =>
          simp only [Wm.setWindow, Function.update_apply]
          by_cases hj : j = i <;> simp [hj]
      | some n =>
          have hni : i ≠ n := fun heq => hnext (by rw [hn, heq])
          simp only [Wm.setWindow, Function.update_apply]
          by_cases hj : j = i
          · simp [hj, hni]
          · by_cases hjn : j = n
            · simp [hjn, Ne.symm hni, hp]
            · simp [hj, hjn, Ne.symm hjn]
  | some p =>
      have hpi : i ≠ p := fun heq => hprev (by rw [hp, heq])
      cases hn : (s.windows i).next with
      | none =>
          simp only [Wm.setWindow, hn, Function.update_apply, if_neg hpi]
          by_cases hj : j = i
          · simp [hj]
          · by_cases hjp : j = p
            · simp [hjp, Ne.symm hpi]
            · simp [hj, hjp, Ne.symm hjp]
      | some n =>
          have hni : i ≠ n := fun heq => hnext (by rw [hn, heq])
          simp only [Wm.setWindow, hn, hp, Function.update_apply, if_neg hpi, if_neg hni]
          by_cases hj : j = i
          · simp [hj]
          · by_cases hjp : j = p
            · by_cases hjn : j = n
              · subst hjp
                subst hjn
                simp [hj]
              · subst hjp
                simp [hj, hjn, Ne.symm hjn]
            · by_cases hjn : j = n
              · subst hjn
                simp [hj, hjp, Ne.symm hjp]
              · simp [hj, hjp, hjn, Ne.symm hjp, Ne.symm hjn]

theorem zlistRemove_ends (s : Wm) (i : Nat) (hprev : (s.windows i).prev ≠ some i) :
    (zlistRemove s i).zlistHead = (if (s.windows i).prev = none then (s.windows i).next else s.zlistHead) ∧
      (zlistRemove s i).zlistTail = (if (s.windows i).next = none then (s.windows i).prev else s.zlistTail) ∧
      (zlistRemove s i).used = s.used ∧ (zlistRemove s i).dragWin = s.dragWin ∧ (zlistRemove s i).resizeWin = s.resizeWin := by
  rw [zlistRemove]
  cases hp : (s.windows i).prev with
  | none => cases (s.windows i).next <;> simp [Wm.setWindow, hp]
  | some p =>
      have hpi : i ≠ p := fun heq => hprev (by rw [hp, heq])
      cases hn : (s.windows i).next <;> simp [Wm.setWindow, hn, hp, Function.update_of_ne hpi]

theorem Wm.ZList.push (h : s.ZList l) (hi : i ∉ l) : (zlistPushTop s i).ZList (l ++ [i]) := by
  obtain ⟨hhead, htail, -⟩ := zlistPushTop_ends s i
  have hne : ∀ y ∈ l, y ≠ i := fun y hy heq => hi (heq ▸ hy)
  have hnotlast : s.zlistTail ≠ some i := fun heq => hi (List.mem_of_getLast? ((IsDList.tail_eq h).symm.trans heq))
  rw [ZList, hhead, htail]
  refine IsDList.pushBack h hi ?_ ?_ ?_ ?_
  · intro y hy
    simp only [zlistPushTop_windows, if_neg (hne y hy)]
  · intro y hy
    simp only [zlistPushTop_windows, if_neg (hne y hy)]
  · simp only [zlistPushTop_windows, if_neg hnotlast, if_true]
  · simp only [zlistPushTop_windows, if_true]

/-- A listed window is not its own neighbour. -/
theorem Wm.ZList.ne_self {before after : List Nat} (h : s.ZList (before ++ i :: after)) :
    (s.windows i).prev ≠ some i ∧ (s.windows i).next ≠ some i := by
  have hnodup := IsDList.nodup h
  rw [List.nodup_append, List.nodup_cons] at hnodup
  rw [IsDList.prev_eq h, IsDList.next_eq h]
  constructor
  · intro heq
    exact hnodup.2.2 i (List.mem_of_getLast? heq) i List.mem_cons_self rfl
  · intro heq
    exact hnodup.2.1.1 (List.mem_of_head? heq)

theorem Wm.ZList.remove {before after : List Nat} (h : s.ZList (before ++ i :: after)) : (zlistRemove s i).ZList (before ++ after) := by
  obtain ⟨hprev, hnext⟩ := h.ne_self
  obtain ⟨hhead, htail, -⟩ := zlistRemove_ends s i hprev
  have hne : ∀ y ∈ before ++ after, y ≠ i := by
    rintro y hy rfl
    have hnodup := IsDList.nodup h
    rw [List.nodup_middle, List.nodup_cons] at hnodup
    exact hnodup.1 hy
  rw [ZList, hhead, htail]
  refine IsDList.erase h ?_ ?_
  · intro y hy
    simp only [zlistRemove_windows s i y hprev hnext, if_neg (hne y hy)]
  · intro y hy
    simp only [zlistRemove_windows s i y hprev hnext, if_neg (hne y hy)]

/-! ### The active window -/

theorem active_or (flags : BitVec 32) : (flags ||| wmFlagActive) &&& wmFlagActive ≠ 0 := by
  have hself : (flags ||| wmFlagActive) &&& wmFlagActive = wmFlagActive := by
    ext j hj
    simp only [BitVec.getElem_and, BitVec.getElem_or]
    cases flags[j] <;> cases wmFlagActive[j] <;> rfl
  rw [hself]
  decide

theorem setFlag_active (s : Wm) (i j : Nat) :
    ((s.setFlag i wmFlagActive).windows j).has wmFlagActive = (decide (j = i) || (s.windows j).has wmFlagActive) := by
  rw [Wm.setFlag, Wm.setWindow_windows]
  split
  · rename_i hj
    simpa [WmWindow.has, hj] using active_or (s.windows i).flags
  · rename_i hj
    simp [hj]

theorem clearFlag_active (s : Wm) (i j : Nat) :
    ((s.clearFlag i wmFlagActive).windows j).has wmFlagActive = (!decide (j = i) && (s.windows j).has wmFlagActive) := by
  rw [Wm.clearFlag, Wm.setWindow_windows]
  split
  · rename_i hj
    have hnone : ~~~wmFlagActive &&& wmFlagActive = 0 := by decide
    simp [WmWindow.has, BitVec.and_assoc, hnone, hj]
  · rename_i hj
    simp [hj]

theorem SameLinks.refl (s : Wm) : SameLinks s s := (SameStack.refl s).toSameLinks

theorem SameLinks.trans {s'' : Wm} (h : SameLinks s s') (h' : SameLinks s' s'') : SameLinks s s'' where
  next i := (h'.next i).trans (h.next i)
  prev i := (h'.prev i).trans (h.prev i)
  head := h'.head.trans h.head
  tail := h'.tail.trans h.tail
  used := h'.used.trans h.used
  drag := h'.drag.trans h.drag
  resize := h'.resize.trans h.resize

theorem SameLinks.setFlag (s : Wm) (i : Nat) (flag : BitVec 32) : SameLinks s (s.setFlag i flag) := SameLinks.of_setWindow rfl rfl

theorem SameLinks.clearFlag (s : Wm) (i : Nat) (flag : BitVec 32) : SameLinks s (s.clearFlag i flag) := SameLinks.of_setWindow rfl rfl

/-- The windows of `l` are not active. -/
def Wm.NoneActive (s : Wm) (l : List Nat) : Prop := ∀ i ∈ l, (s.windows i).has wmFlagActive = false

/-- The flag of the last window is cleared. -/
theorem Wm.ZList.lower (hlinked : s.ZList l) (hactive : ∀ i ∈ l, (s.windows i).has wmFlagActive = true ↔ l.getLast? = some i)
    (lower : Nat → Wm) (hlower : ∀ t, SameLinks s (lower t) ∧
      ∀ j, ((lower t).windows j).has wmFlagActive = (!decide (j = t) && (s.windows j).has wmFlagActive)) :
    SameLinks s (match s.zlistTail with | some t => lower t | none => s) ∧
      (match s.zlistTail with | some t => lower t | none => s).NoneActive l := by
  have htail : s.zlistTail = l.getLast? := IsDList.tail_eq hlinked
  cases hlast : s.zlistTail with
  | none =>
      refine ⟨SameLinks.refl s, fun i hi => ?_⟩
      rw [hlast] at htail
      rw [List.getLast?_eq_none_iff.mp htail.symm] at hi
      exact absurd hi List.not_mem_nil
  | some t =>
      refine ⟨(hlower t).1, fun i hi => ?_⟩
      rw [(hlower t).2]
      by_cases hit : i = t
      · simp [hit]
      · have hnot : ¬(s.windows i).has wmFlagActive = true := by
          rw [hactive i hi, ← htail, hlast, Option.some.injEq]
          exact Ne.symm hit
        simpa [hit] using hnot

/-- A window that is put on top and made active, the others being inactive. -/
theorem raise_listed {s₀ : Wm} {fb : FbInfo} (hlinked : s.ZList l) (hnone : s.NoneActive l) (hi : i ∉ l)
    (hmembers : ∀ j, j ∈ l ++ [i] ↔ j < wmMaxWindows ∧ s.used j = true) (hdrag : ∀ j, s.dragWin = some j → j ∈ l ++ [i])
    (hresize : ∀ j, s.resizeWin = some j → j ∈ l ++ [i]) (hs₀ : s₀ = wmMarkWindowDirty fb ((zlistPushTop s i).setFlag i wmFlagActive) i) :
    ZListed s₀ (l ++ [i]) := by
  obtain ⟨-, -, hused, hdragWin, hresizeWin⟩ := zlistPushTop_ends s i
  have hlinks := SameLinks.setFlag (zlistPushTop s i) i wmFlagActive
  have hlisted : ZListed ((zlistPushTop s i).setFlag i wmFlagActive) (l ++ [i]) := by
    refine ⟨(hlinked.push hi).same hlinks, fun j => ?_, fun j hj => ?_, fun j hj => ?_, fun j hj => ?_⟩
    · rw [hlinks.used, hused]
      exact hmembers j
    · rw [setFlag_active, zlistPushTop_windows, List.getLast?_concat, Option.some.injEq]
      by_cases hji : j = i
      · simp [hji]
      · rcases List.mem_append.mp hj with hj | hj
        · simpa [hji, Ne.symm hji, WmWindow.has] using hnone j hj
        · exact absurd (List.mem_singleton.mp hj) hji
    · rw [hlinks.drag, hdragWin] at hj
      exact hdrag j hj
    · rw [hlinks.resize, hresizeWin] at hj
      exact hresize j hj
  rw [hs₀]
  exact hlisted.same (SameStack.markWindowDirty fb _ i)

/-! ### The calls -/

theorem wmCreateWindow_listed (fb : FbInfo) (h : ZListed s l) (c : WmCreate) : StackOk (wmCreateWindow fb s c).2 := by
  rw [wmCreateWindow]
  split
  · exact ⟨l, h⟩
  rename_i slot hslot
  have hfree : s.used slot = false := by simpa using List.find?_some hslot
  have hlt : slot < wmMaxWindows := List.mem_range.mp (List.mem_of_find?_eq_some hslot)
  have hfresh : slot ∉ l := fun hmem => by simp [((h.members slot).mp hmem).2] at hfree
  have hne : ∀ i ∈ l, i ≠ slot := fun i hi heq => hfresh (heq ▸ hi)
  -- the list is the same around the new window
  have hlinked : ∀ w : WmWindow, ({ s with used := Function.update s.used slot true }.setWindow slot w).ZList l := by
    intro w
    refine IsDList.congr h.linked (fun i hi => ?_) fun i hi => ?_
    · rw [Wm.setWindow_windows, if_neg (hne i hi)]
    · rw [Wm.setWindow_windows, if_neg (hne i hi)]
  have hactive : ∀ w : WmWindow, ∀ i ∈ l,
      (({ s with used := Function.update s.used slot true }.setWindow slot w).windows i).has wmFlagActive = true ↔ l.getLast? = some i := by
    intro w i hi
    rw [Wm.setWindow_windows, if_neg (hne i hi)]
    exact h.active i hi
  obtain ⟨hlinks, hnone⟩ := (hlinked _).lower (hactive _) (fun t => Wm.clearFlag _ t wmFlagActive) fun t => ⟨SameLinks.clearFlag _ t wmFlagActive, clearFlag_active _ t⟩
  refine ⟨l ++ [slot], raise_listed ((hlinked _).same hlinks) hnone hfresh (fun j => ?_) (fun j hj => ?_) (fun j hj => ?_) rfl⟩
  · rw [hlinks.used, List.mem_append, List.mem_singleton, h.members]
    simp only [Wm.setWindow, Function.update_apply]
    by_cases hj : j = slot
    · simp [hj, hlt]
    · simp [hj]
  · rw [hlinks.drag] at hj
    exact List.mem_append_left _ (h.drag j hj)
  · rw [hlinks.resize] at hj
    exact List.mem_append_left _ (h.resize j hj)

theorem wmBringToFront_listed (fb : FbInfo) (h : ZListed s l) {win : Nat} (hwin : win ∈ l) :
    ∃ l', ZListed (wmBringToFront fb s win) l' ∧ win ∈ l' := by
  rw [wmBringToFront]
  split
  · exact ⟨l, h, hwin⟩
  obtain ⟨before, after, rfl⟩ := List.append_of_mem hwin
  obtain ⟨hlinks, hnone⟩ := h.linked.lower h.active (fun t => wmMarkWindowDirty fb (s.clearFlag t wmFlagActive) t) fun t => by
    refine ⟨(SameLinks.clearFlag s t wmFlagActive).trans (SameStack.markWindowDirty fb _ t).toSameLinks, fun j => ?_⟩
    rw [(SameStack.markWindowDirty fb _ t).active, clearFlag_active]
  suffices hraise : ∀ lowered : Wm, SameLinks s lowered → lowered.NoneActive (before ++ win :: after) →
      ∃ l', ZListed (wmMarkWindowDirty fb ((zlistPushTop (zlistRemove lowered win) win).setFlag win wmFlagActive) win) l' ∧ win ∈ l' from
    hraise _ hlinks hnone
  clear hlinks hnone
  intro lowered hlinks hnone
  have hlinked : lowered.ZList (before ++ win :: after) := h.linked.same hlinks
  obtain ⟨hprev, hnext⟩ := hlinked.ne_self
  obtain ⟨-, -, hused, hdragWin, hresizeWin⟩ := zlistRemove_ends lowered win hprev
  have hout : win ∉ before ++ after := by
    have hnodup := IsDList.nodup hlinked
    rw [List.nodup_middle, List.nodup_cons] at hnodup
    exact hnodup.1
  have hmoved : ∀ j, j ∈ before ++ after ++ [win] ↔ j ∈ before ++ win :: after := by
    intro j
    simp only [List.mem_append, List.mem_cons, List.not_mem_nil, or_false]
    tauto
  refine ⟨before ++ after ++ [win],
    raise_listed hlinked.remove (fun j hj => ?_) hout (fun j => ?_) (fun j hj => ?_) (fun j hj => ?_) rfl, List.mem_append_right _ List.mem_cons_self⟩
  · rw [zlistRemove_windows lowered win j hprev hnext]
    apply hnone j
    rw [← hmoved]
    exact List.mem_append_left _ hj
  · rw [hmoved, hused, hlinks.used]
    exact h.members j
  · rw [hdragWin, hlinks.drag] at hj
    rw [hmoved]
    exact h.drag j hj
  · rw [hresizeWin, hlinks.resize] at hj
    rw [hmoved]
    exact h.resize j hj

/-- The window `win` without the list, and what becomes of the others. -/
theorem ZListed.removed {before after : List Nat} {win : Nat} (h : ZListed s (before ++ win :: after)) :
    (zlistRemove s win).ZList (before ++ after) ∧ (∀ j ∈ before ++ after, (((zlistRemove s win).windows j).has wmFlagActive = true →
      (before ++ after).getLast? = some j)) ∧ ∀ j, j ∈ before ++ after ↔ j ≠ win ∧ j ∈ before ++ win :: after := by
  obtain ⟨hprev, hnext⟩ := h.linked.ne_self
  have hnodup := IsDList.nodup h.linked
  have hmem : ∀ j, j ∈ before ++ after ↔ j ≠ win ∧ j ∈ before ++ win :: after := by
    intro j
    rw [List.nodup_middle, List.nodup_cons] at hnodup
    by_cases hj : j = win
    · subst hj
      simp [hnodup.1]
    · simp [hj]
  refine ⟨h.linked.remove, fun j hj hactive => ?_, hmem⟩
  obtain ⟨hne, hin⟩ := (hmem j).mp hj
  rw [zlistRemove_windows s win j hprev hnext] at hactive
  have hlast := (h.active j hin).mp hactive
  cases after with
  | nil =>
      rw [List.getLast?_concat, Option.some.injEq] at hlast
      exact absurd hlast.symm hne
  | cons z after =>
      rw [List.getLast?_append, List.getLast?_cons_cons] at hlast
      rw [List.getLast?_append]
      exact hlast

/-- The last window becomes the active one, if it was not. -/
theorem top_listed (fb : FbInfo) (hlinked : s.ZList l) (hmembers : ∀ j, j ∈ l ↔ j < wmMaxWindows ∧ s.used j = true)
    (hactive : ∀ j ∈ l, (s.windows j).has wmFlagActive = true → l.getLast? = some j) (hdrag : ∀ j, s.dragWin = some j → j ∈ l)
    (hresize : ∀ j, s.resizeWin = some j → j ∈ l) :
    ZListed (match s.zlistTail with | some t => wmMarkWindowDirty fb (s.setFlag t wmFlagActive) t | none => s) l := by
  have htail : s.zlistTail = l.getLast? := IsDList.tail_eq hlinked
  cases hlast : s.zlistTail with
  | none =>
      rw [hlast] at htail
      have hnil : l = [] := List.getLast?_eq_none_iff.mp htail.symm
      exact ⟨hlinked, hmembers, fun j hj => absurd (hnil ▸ hj) List.not_mem_nil, hdrag, hresize⟩
  | some t =>
      have hlinks := SameLinks.setFlag s t wmFlagActive
      refine ZListed.same ⟨hlinked.same hlinks, fun j => ?_, fun j hj => ?_, fun j hj => ?_, fun j hj => ?_⟩ (SameStack.markWindowDirty fb _ t)
      · rw [hlinks.used]
        exact hmembers j
      · rw [setFlag_active, ← htail, hlast, Option.some.injEq]
        by_cases hjt : j = t
        · simp [hjt]
        · have hnot : (s.windows j).has wmFlagActive = false := by
            by_contra hset
            have hsame := hactive j hj (by simpa using hset)
            rw [← htail, hlast, Option.some.injEq] at hsame
            exact hjt hsame.symm
          simp [hjt, Ne.symm hjt, hnot]
      · rw [hlinks.drag] at hj
        exact hdrag j hj
      · rw [hlinks.resize] at hj
        exact hresize j hj

theorem ZListed.release (h : ZListed s l) (win : Nat) :
    ZListed (releaseHeld s win) l ∧ (releaseHeld s win).dragWin ≠ some win ∧ (releaseHeld s win).resizeWin ≠ some win := by
  refine ⟨⟨h.linked, h.members, h.active, fun j hj => ?_, fun j hj => ?_⟩, ?_, ?_⟩
  · simp only [releaseHeld] at hj
    split at hj
    · simp at hj
    · exact h.drag j hj
  · simp only [releaseHeld] at hj
    split at hj
    · simp at hj
    · exact h.resize j hj
  · simp only [releaseHeld]
    split
    · exact Option.some_ne_none win |>.symm
    · rename_i hne
      exact hne
  · simp only [releaseHeld]
    split
    · exact Option.some_ne_none win |>.symm
    · rename_i hne
      exact hne

theorem SameStack.freeAppData (s : Wm) (win : Nat) : SameStack s (freeAppData s win) := by
  rw [Tsukasa.freeAppData]
  split
  · exact SameStack.of_setWindow rfl rfl rfl
  · exact SameStack.refl s

theorem wmDestroyWindow_listed (fb : FbInfo) (h : ZListed s l) {win : Nat} (hwin : win ∈ l) : StackOk (wmDestroyWindow fb s win) := by
  obtain ⟨before, after, rfl⟩ := List.append_of_mem hwin
  have hlt : win < wmMaxWindows := ((h.members win).mp hwin).1
  obtain ⟨hreleased, hdrag, hresize⟩ := (h.same (SameStack.markWindowDirty fb s win)).release win
  simp only [wmDestroyWindow, if_pos hlt]
  generalize releaseHeld (wmMarkWindowDirty fb s win) win = released at hreleased hdrag hresize
  obtain ⟨hlinked, hactive, hmem⟩ := hreleased.removed
  obtain ⟨hprev, -⟩ := hreleased.linked.ne_self
  obtain ⟨-, -, hused, hdragWin, hresizeWin⟩ := zlistRemove_ends released win hprev
  have hsame := SameStack.freeAppData (zlistRemove released win) win
  generalize freeAppData (zlistRemove released win) win = freed at hsame ⊢
  have hfreed : Wm.ZList { freed with used := Function.update freed.used win false } (before ++ after) := by
    have hkept := hlinked.same hsame.toSameLinks
    exact hkept
  refine ⟨before ++ after, top_listed fb hfreed (fun j => ?_) (fun j hj hset => ?_) (fun j hj => ?_) (fun j hj => ?_)⟩
  · simp only [hmem, hreleased.members, hsame.used, hused, Function.update_apply]
    by_cases hj : j = win
    · simp [hj]
    · simp [hj]
  · rw [hsame.active] at hset
    exact hactive j hj hset
  · have hheld : released.dragWin = some j := by rw [← hdragWin, ← hsame.drag, ← hj]
    refine (hmem j).mpr ⟨?_, hreleased.drag j hheld⟩
    rintro rfl
    exact hdrag hheld
  · have hheld : released.resizeWin = some j := by rw [← hresizeWin, ← hsame.resize, ← hj]
    refine (hmem j).mpr ⟨?_, hreleased.resize j hheld⟩
    rintro rfl
    exact hresize hheld

/-! ### Finding a window -/

theorem findWindowLoop_eq {cur : Option Nat} {down : List Nat} (hlist : IsList (fun i => (s.windows i).prev) cur down) (px py : Int) {fuel : Nat}
    (hfuel : down.length < fuel) : findWindowLoop s px py fuel cur = down.find? fun i => (s.windows i).at px py := by
  induction down generalizing cur fuel with
  | nil =>
      rw [isList_nil.mp hlist]
      obtain ⟨fuel, rfl⟩ := Nat.exists_eq_succ_of_ne_zero (Nat.ne_of_gt hfuel)
      rfl
  | cons i down ih =>
      obtain ⟨rfl, hrest⟩ := isList_cons.mp hlist
      obtain ⟨fuel, rfl⟩ := Nat.exists_eq_succ_of_ne_zero (Nat.ne_of_gt (Nat.zero_lt_of_lt hfuel))
      rw [findWindowLoop, List.find?_cons]
      rw [List.length_cons] at hfuel
      cases (s.windows i).at px py with
      | true => rfl
      | false => exact ih hrest (by omega)

/-- The search comes upon the topmost listed window at the point. -/
theorem ZListed.find_eq (h : ZListed s l) (px py : Int) : wmFindWindowAt s px py = l.reverse.find? fun i => (s.windows i).at px py := by
  apply findWindowLoop_eq (IsDList.backward h.linked)
  have hsub : l ⊆ List.range wmMaxWindows := fun i hi => List.mem_range.mpr ((h.members i).mp hi).1
  have hlen := (IsDList.nodup h.linked).subperm hsub |>.length_le
  rw [List.length_range] at hlen
  rw [List.length_reverse]
  omega

theorem ZListed.find_mem (h : ZListed s l) {px py : Int} {hit : Nat} (hfind : wmFindWindowAt s px py = some hit) : hit ∈ l := by
  rw [h.find_eq] at hfind
  exact List.mem_reverse.mp (List.mem_of_find?_eq_some hfind)

/-! ### The mouse -/

theorem handleResize_listed (fb : FbInfo) (h : ZListed s l) (i : Nat) (m : WmMouse) : ZListed (handleResize fb s i m).1 l := by
  rw [handleResize]
  split
  · refine h.same (SameStack.trans (SameStack.trans ?_ (SameStack.markMoved fb _ i _ _ _ _)) (SameStack.dispatch fb _ _))
    exact SameStack.of_setWindow rfl rfl rfl
  · exact ⟨h.linked, h.members, h.active, h.drag, fun j hj => absurd hj.symm (Option.some_ne_none j)⟩

theorem handleDrag_listed (fb : FbInfo) (h : ZListed s l) (i : Nat) (m : WmMouse) : ZListed (handleDrag fb s i m) l := by
  rw [handleDrag]
  split
  · refine h.same (SameStack.trans ?_ (SameStack.markMoved fb _ i _ _ _ _))
    exact SameStack.of_setWindow rfl rfl rfl
  · have hcleared := h.same (SameStack.clearFlag s i wmFlagDragging (by decide))
    exact ⟨hcleared.linked, hcleared.members, hcleared.active, fun j hj => absurd hj.symm (Option.some_ne_none j), hcleared.resize⟩

theorem handlePress_listed (fb : FbInfo) (h : ZListed s l) {hit : Nat} (hhit : hit ∈ l) (m : WmMouse) : StackOk (handlePress fb s hit m).1 := by
  simp only [handlePress]
  split
  · have hclosing := h.same (SameStack.dispatch fb s ⟨hit, inputEventClose, mouseBtnDown, m.buttons, m.mx, m.my⟩)
    split
    · exact wmDestroyWindow_listed fb hclosing hhit
    · exact ⟨l, hclosing⟩
  split
  · refine ⟨l, h.linked, h.members, h.active, h.drag, fun j hj => ?_⟩
    cases hj
    exact hhit
  split
  · refine ⟨l, ZListed.same ?_ (SameStack.setFlag _ hit wmFlagDragging (by decide))⟩
    refine ⟨h.linked, h.members, h.active, fun j hj => ?_, h.resize⟩
    cases hj
    exact hhit
  · refine ⟨l, ?_⟩
    split
    · refine ZListed.same ?_ (SameStack.dispatch fb _ _)
      split
      · exact h.same ((SameStack.dispatch fb s _).trans (SameStack.dispatch fb _ _))
      · exact h
    · split
      · exact h.same ((SameStack.dispatch fb s _).trans (SameStack.dispatch fb _ _))
      · exact h

theorem handleHover_listed (fb : FbInfo) (h : ZListed s l) (m : WmMouse) : ZListed (handleHover fb s m).2.1 l := by
  rw [handleHover]
  split
  · exact h.same (SameStack.dispatch fb s _)
  · split
    · exact h.same (SameStack.dispatch fb s _)
    · exact h

theorem wmHandleMouse_listed (fb : FbInfo) (h : ZListed s l) (m : WmMouse) : StackOk (wmHandleMouse fb s m).2.1 := by
  suffices hbefore : StackOk
      (match s.resizeWin with
        | some i => (1, handleResize fb s i m)
        | none =>
            match s.dragWin with
            | some i => (1, handleDrag fb s i m, [])
            | none =>
                match if m.leftDownEdge || m.rightDownEdge then wmFindWindowAt s m.mx m.my else none with
                | some hit => (1, handlePress fb (wmBringToFront fb s hit) hit m)
                | none => handleHover fb s m : WmResult).2.1 by
    obtain ⟨l', h'⟩ := hbefore
    exact ⟨l', h'.linked, h'.members, h'.active, h'.drag, h'.resize⟩
  split
  · exact ⟨l, handleResize_listed fb h _ m⟩
  split
  · exact ⟨l, handleDrag_listed fb h _ m⟩
  split
  · rename_i hit hfind
    split at hfind
    · have hhit := h.find_mem hfind
      obtain ⟨l', h', hhit'⟩ := wmBringToFront_listed fb h hhit
      exact handlePress_listed fb h' hhit' m
    · exact absurd hfind.symm (Option.some_ne_none _)
  · exact ⟨l, handleHover_listed fb h m⟩

/-! ### Runs -/

inductive WmStep where
  | create (c : WmCreate)
  | destroy (win : Nat)
  | bringToFront (win : Nat)
  | mouse (m : WmMouse)

def WmStep.step (fb : FbInfo) (s : Wm) : WmStep → Wm
  | create c => (wmCreateWindow fb s c).2
  | destroy win => wmDestroyWindow fb s win
  | bringToFront win => wmBringToFront fb s win
  | mouse m => (wmHandleMouse fb s m).2.1

/-- A window that a caller names is live. -/
def WmStep.Live (s : Wm) : WmStep → Prop
  | destroy win => win < wmMaxWindows ∧ s.used win = true
  | bringToFront win => win < wmMaxWindows ∧ s.used win = true
  | _ => True

instance (s : Wm) : (step : WmStep) → Decidable (step.Live s)
  | .create _ => isTrue trivial
  | .destroy win => inferInstanceAs (Decidable (win < wmMaxWindows ∧ s.used win = true))
  | .bringToFront win => inferInstanceAs (Decidable (win < wmMaxWindows ∧ s.used win = true))
  | .mouse _ => isTrue trivial

theorem wmInit_listed (s : Wm) : ZListed (wmInit s) [] where
  linked := IsDList.nil
  members i := by
    simp only [List.not_mem_nil, false_iff, not_and, wmInit]
    intro hi
    simp [hi]
  active i hi := absurd hi List.not_mem_nil
  drag i hi := absurd hi.symm (Option.some_ne_none i)
  resize i hi := absurd hi.symm (Option.some_ne_none i)

theorem WmStep.step_listed (fb : FbInfo) (a : WmStep) (h : StackOk s) (hlive : a.Live s) : StackOk (a.step fb s) := by
  obtain ⟨l, h⟩ := h
  cases a with
  | create c => exact wmCreateWindow_listed fb h c
  | destroy win => exact wmDestroyWindow_listed fb h ((h.members win).mpr hlive)
  | bringToFront win =>
      obtain ⟨l', h', -⟩ := wmBringToFront_listed fb h ((h.members win).mpr hlive)
      exact ⟨l', h'⟩
  | mouse m => exact wmHandleMouse_listed fb h m

/-- The stacking list stays consistent, whatever was in the memory of the window manager when it was initialised. -/
theorem stacking_list_consistent (fb : FbInfo) (memory : Wm) (steps : List WmStep)
    (hlive : Lib.Allowed WmStep.Live (WmStep.step fb) (wmInit memory) steps) :
    ∃ l, l.Nodup ∧ ZListed (Lib.run (WmStep.step fb) (wmInit memory) steps) l := by
  have hrun : StackOk (Lib.run (WmStep.step fb) (wmInit memory) steps) :=
    Lib.run_invariant (fun s a h ha => a.step_listed fb h ha) ⟨[], wmInit_listed memory⟩ hlive
  obtain ⟨l, h⟩ := hrun
  exact ⟨l, IsDList.nodup h.linked, h⟩

/-- Two windows, the lower one raised and dragged by the mouse and then destroyed while it is held. -/
def dragAndDestroy : List WmStep :=
  [.create ⟨10, 10, 300, 200, [], 0, 1, 0⟩, .create ⟨50, 50, 300, 200, [], 0, 1, 0⟩, .mouse ⟨200, 20, 1#32, 1#32⟩, .mouse ⟨220, 30, 1#32, 0⟩,
    .destroy 0, .bringToFront 1]

theorem stacking_list_consistent_dragged :
    ∃ l, l.Nodup ∧ ZListed (Lib.run (WmStep.step ⟨0xE0000000, 4096, 1024, 768, 32⟩) (wmInit Wm.zeroed) dragAndDestroy) l :=
  stacking_list_consistent _ _ dragAndDestroy (by decide +kernel)

end Tsukasa

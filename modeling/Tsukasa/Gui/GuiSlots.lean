import Tsukasa.Gui.EventQueues
import Tsukasa.Lib.Run

/-!
# The slots of windows

A create reserves a slot, drops the lock to make its window, and takes the lock again to fill the slot. Until then the slot still carries the handle and the owner of its last window. As long as no destroy comes upon such a slot, a slot belongs to one create or one window at a time.
-/

namespace Tsukasa

open Lib

/-- A call of a thread that is between two holds of the lock. -/
inductive GuiCall where
  | idle
  | creating (pid : Int) (slot : Nat) (title : Option (List UInt8)) (w h : Int)
  /-- `gui_srv_process_cleanup` before it looks for the next window. -/
  | scanning (pid : Int)
  /-- `gui_srv_process_cleanup` before it destroys the window it has found. -/
  | cleaning (pid handle : Int)

/-- What a create has installed and handed out. -/
structure GuiHandle where
  handle : Int
  slot : Nat
  pid : Int
  win : Nat
  pixels : Nat

/-- The window service with the calls under way, and the handles in use: those that neither a destroy for their owner nor a cleanup of it has been given. -/
structure GuiTrace where
  srv : GuiSrv
  calls : Nat → GuiCall
  issued : List GuiHandle

inductive GuiStep where
  | create (thread : Nat) (pid : Int) (title : Option (List UInt8)) (w h : Int)
  /-- The end of a create. `win` is what `wm_create_window` returns and `pixels` what `kmalloc` does. -/
  | createEnd (thread win pixels : Nat)
  | destroy (pid handle : Int)
  | cleanup (thread : Nat) (pid : Int)
  | cleanupNext (thread : Nat)

namespace GuiTrace

def setCall (t : GuiTrace) (thread : Nat) (call : GuiCall) : GuiTrace := { t with calls := Function.update t.calls thread call }

def destroyed (t : GuiTrace) (pid handle : Int) : GuiTrace :=
  { t with
    srv := (guiSrvWindowDestroy t.srv pid handle).2.2
    issued := t.issued.filter fun e => ¬ (e.handle = handle ∧ e.pid = pid) }

/-- One hold of the lock. -/
def step (t : GuiTrace) : GuiStep → GuiTrace
  | .create thread pid title w h =>
      match t.calls thread with
      | .idle =>
          if w ≤ 0 ∨ h ≤ 0 then t
          else
            match reserveSlot t.srv with
            | none => t
            | some (i, srv) => { t with srv := srv }.setCall thread (.creating pid i title w h)
      | _ => t
  | .createEnd thread win pixels =>
      match t.calls thread with
      | .creating pid i title w h =>
          if win = 0 then { t with srv := releaseSlot t.srv i }.setCall thread .idle
          else
            let r := installWindow t.srv i pid win title w h pixels
            let issued := if 0 < r.1 then t.issued ++ [⟨r.1, i, pid, win, pixels⟩] else t.issued
            { t with srv := r.2, issued := issued }.setCall thread .idle
      | _ => t
  | .destroy pid handle => t.destroyed pid handle
  | .cleanup thread pid =>
      match t.calls thread with
      | .idle => t.setCall thread (.scanning pid)
      | _ => t
  | .cleanupNext thread =>
      match t.calls thread with
      | .scanning pid =>
          let handle := cleanupScan t.srv pid
          t.setCall thread (if handle < 0 then .idle else .cleaning pid handle)
      | .cleaning pid handle => (t.destroyed pid handle).setCall thread (.scanning pid)
      | _ => t

def start (s : GuiSrv) : GuiTrace := ⟨guiSrvInit s, fun _ => .idle, []⟩

end GuiTrace

def GuiCall.slot : GuiCall → Option Nat
  | .creating _ i _ _ _ => some i
  | _ => none

/-- The destroy that is the next step of a cleanup. -/
def GuiCall.destroying : GuiCall → Option (Int × Int)
  | .cleaning pid handle => some (pid, handle)
  | _ => none

namespace GuiTrace

/-- A slot is with one create or one window, and a handle in use leads to what its create has installed. -/
structure Sound (t : GuiTrace) : Prop where
  creates : ∀ a b i, a ≠ b → (t.calls a).slot = some i → (t.calls b).slot ≠ some i
  reserved : ∀ a i, (t.calls a).slot = some i → (t.srv.windows i).used = 2 ∧ ∀ e ∈ t.issued, e.slot ≠ i
  windows : t.issued.Pairwise fun e e' => e.slot ≠ e'.slot ∧ e.handle ≠ e'.handle
  names : ∀ e ∈ t.issued, findSlotByHandle t.srv e.handle = some e.slot ∧ (t.srv.windows e.slot).ident = (1, e.handle, e.pid, e.win, e.pixels)

/-- A cleanup changes slots of windows made for its process only. -/
def CleanupOwn (t : GuiTrace) : GuiStep → Prop
  | .cleanupNext thread => ∀ i, (t.step (.cleanupNext thread)).srv.windows i ≠ t.srv.windows i →
      ∃ x ∈ (t.calls thread).destroying, ∃ e ∈ t.issued, e.slot = i ∧ e.pid = x.1
  | _ => True

/-- The handle does not lead to a slot of that owner which a create has reserved. -/
def NotReserved (t : GuiTrace) (pid handle : Int) : Prop :=
  ∀ i ∈ findSlotByHandle t.srv handle, (t.srv.windows i).ownerPid = pid → (t.srv.windows i).used ≠ 2

/-- No destroy comes upon a reserved slot, and handles have not run out. -/
def Safe (t : GuiTrace) : GuiStep → Prop
  | .createEnd _ _ _ => t.srv.nextHandle < 2 ^ 31 - 1
  | .destroy pid handle => t.NotReserved pid handle
  | .cleanupNext thread => ∀ x ∈ (t.calls thread).destroying, t.NotReserved x.1 x.2
  | _ => True

instance (t : GuiTrace) (pid handle : Int) : Decidable (t.NotReserved pid handle) :=
  inferInstanceAs (Decidable (∀ i ∈ findSlotByHandle t.srv handle, (t.srv.windows i).ownerPid = pid → (t.srv.windows i).used ≠ 2))

instance (t : GuiTrace) : (a : GuiStep) → Decidable (t.Safe a)
  | .create .. | .cleanup .. => isTrue trivial
  | .createEnd _ _ _ => inferInstanceAs (Decidable (t.srv.nextHandle < 2 ^ 31 - 1))
  | .destroy pid handle => inferInstanceAs (Decidable (t.NotReserved pid handle))
  | .cleanupNext thread => inferInstanceAs (Decidable (∀ x ∈ (t.calls thread).destroying, t.NotReserved x.1 x.2))

/-! ### The invariant -/

structure Inv (t : GuiTrace) : Prop where
  next : 1 ≤ t.srv.nextHandle
  below : ∀ i < guiSrvMaxWindows, 0 ≤ (t.srv.windows i).handle ∧ (t.srv.windows i).handle < t.srv.nextHandle
  distinct : ∀ i < guiSrvMaxWindows, ∀ j < guiSrvMaxWindows, i ≠ j → (t.srv.windows i).handle = (t.srv.windows j).handle → (t.srv.windows i).handle = 0
  creates : ∀ a b i, a ≠ b → (t.calls a).slot = some i → (t.calls b).slot ≠ some i
  reserved : ∀ a i, (t.calls a).slot = some i → i < guiSrvMaxWindows ∧ (t.srv.windows i).used = 2
  named : ∀ e ∈ t.issued, e.slot < guiSrvMaxWindows ∧ 1 ≤ e.handle ∧ (t.srv.windows e.slot).ident = (1, e.handle, e.pid, e.win, e.pixels)
  apart : t.issued.Pairwise fun e e' => e.slot ≠ e'.slot
  owned : ∀ i < guiSrvMaxWindows, (t.srv.windows i).used = 0 ∨ (t.srv.windows i).used = 2 ∨ ∃ e ∈ t.issued, e.slot = i

variable {t : GuiTrace} {i : Nat}

theorem start_inv (s : GuiSrv) : Inv (start s) := by
  have hwindow : ∀ i < guiSrvMaxWindows, ((start s).srv.windows i).used = 0 ∧ ((start s).srv.windows i).handle = 0 := by
    intro i hi
    simp only [start, guiSrvInit, if_pos hi, and_self]
  refine ⟨le_refl 1, fun i hi => ?_, fun i hi _ _ _ _ => (hwindow i hi).2, fun _ _ _ _ ha => absurd ha (by simp [start, GuiCall.slot]),
    fun _ _ ha => absurd ha (by simp [start, GuiCall.slot]), fun e he => absurd he List.not_mem_nil, List.Pairwise.nil, fun i hi => Or.inl (hwindow i hi).1⟩
  rw [(hwindow i hi).2]
  exact ⟨le_refl 0, Int.one_pos⟩

theorem Inv.find (h : t.Inv) (hi : i < guiSrvMaxWindows) (hused : (t.srv.windows i).used ≠ 0) (hpos : 1 ≤ (t.srv.windows i).handle) :
    findSlotByHandle t.srv (t.srv.windows i).handle = some i := by
  cases hfind : findSlotByHandle t.srv (t.srv.windows i).handle with
  | none =>
      have hnone := List.find?_eq_none.mp hfind i (List.mem_range.mpr hi)
      simp [hused] at hnone
  | some j =>
      have hfound := List.find?_some hfind
      have hj := List.mem_range.mp (List.mem_of_find?_eq_some hfind)
      simp only [decide_eq_true_eq] at hfound
      congr 1
      by_contra hji
      have hzero := h.distinct i hi j hj (Ne.symm hji) hfound.2.symm
      omega

theorem ident_eq {gw : GuiWindow} {e : GuiHandle} (h : gw.ident = (1, e.handle, e.pid, e.win, e.pixels)) :
    gw.used = 1 ∧ gw.handle = e.handle ∧ gw.ownerPid = e.pid := by
  simp only [GuiWindow.ident, Prod.mk.injEq] at h
  exact ⟨h.1, h.2.1, h.2.2.1⟩

theorem Inv.sound (h : t.Inv) : t.Sound where
  creates := h.creates
  reserved a i hi := by
    refine ⟨(h.reserved a i hi).2, fun e he heq => ?_⟩
    have hused := (ident_eq (h.named e he).2.2).1
    rw [heq, (h.reserved a i hi).2] at hused
    exact absurd hused (by decide)
  windows := by
    apply h.apart.imp_of_mem
    intro e e' he he' hne
    refine ⟨hne, fun heq => ?_⟩
    obtain ⟨hlt, hpos, hident⟩ := h.named e he
    obtain ⟨hlt', -, hident'⟩ := h.named e' he'
    have hzero := h.distinct e.slot hlt e'.slot hlt' hne (by rw [(ident_eq hident).2.1, (ident_eq hident').2.1, heq])
    rw [(ident_eq hident).2.1] at hzero
    omega
  names e he := by
    obtain ⟨hlt, hpos, hident⟩ := h.named e he
    have hfind := h.find hlt (by rw [(ident_eq hident).1]; decide) (by rw [(ident_eq hident).2.1]; exact hpos)
    rw [(ident_eq hident).2.1] at hfind
    exact ⟨hfind, hident⟩

/-! ### Steps -/

theorem setCall_slot (t : GuiTrace) (thread : Nat) {call : GuiCall} (hslot : call.slot = (t.calls thread).slot) (a : Nat) :
    ((t.setCall thread call).calls a).slot = (t.calls a).slot := by
  simp only [setCall]
  by_cases ha : a = thread
  · rw [ha, Function.update_self, hslot]
  · rw [Function.update_of_ne ha]

/-- A call goes on without a slot. -/
theorem Inv.setCall (h : t.Inv) (thread : Nat) {call : GuiCall} (hslot : call.slot = (t.calls thread).slot) : Inv (t.setCall thread call) := by
  refine ⟨h.next, h.below, h.distinct, fun a b i hab => ?_, fun a i => ?_, h.named, h.apart, h.owned⟩
  · rw [setCall_slot t thread hslot, setCall_slot t thread hslot]
    exact h.creates a b i hab
  · rw [setCall_slot t thread hslot]
    exact h.reserved a i

theorem used_ident {gw gw' : GuiWindow} (h : gw'.ident = gw.ident) : gw'.used = gw.used ∧ gw'.handle = gw.handle := by
  simp only [GuiWindow.ident, Prod.mk.injEq] at h
  exact ⟨h.1, h.2.1⟩

/-- One slot changes; it keeps its handle or gets the next one. -/
theorem Inv.of_slot (h : t.Inv) {t' : GuiTrace} (hi : i < guiSrvMaxWindows) (hothers : ∀ j, j ≠ i → (t'.srv.windows j).ident = (t.srv.windows j).ident)
    (hhandle : (t'.srv.windows i).handle = (t.srv.windows i).handle ∧ t'.srv.nextHandle = t.srv.nextHandle ∨
      (t'.srv.windows i).handle = t.srv.nextHandle ∧ t'.srv.nextHandle = t.srv.nextHandle + 1)
    (hcreates : ∀ a b j, a ≠ b → (t'.calls a).slot = some j → (t'.calls b).slot ≠ some j)
    (hreserved : ∀ a j, (t'.calls a).slot = some j → j ≠ i ∧ (t.calls a).slot = some j ∨ j = i ∧ (t'.srv.windows i).used = 2)
    (hissued : ∀ e ∈ t'.issued, e ∈ t.issued ∧ e.slot ≠ i ∨ e.slot = i ∧ 1 ≤ e.handle ∧ (t'.srv.windows i).ident = (1, e.handle, e.pid, e.win, e.pixels))
    (hapart : t'.issued.Pairwise fun e e' => e.slot ≠ e'.slot) (hkept : ∀ e ∈ t.issued, e.slot ≠ i → e ∈ t'.issued)
    (howned : (t'.srv.windows i).used = 0 ∨ (t'.srv.windows i).used = 2 ∨ ∃ e ∈ t'.issued, e.slot = i) : t'.Inv := by
  have hnext : t.srv.nextHandle ≤ t'.srv.nextHandle := by
    rcases hhandle with ⟨-, hsame⟩ | ⟨-, hmore⟩ <;> omega
  have hpos := h.next
  refine ⟨by omega, fun j hj => ?_, fun j hj k hk hjk => ?_, hcreates, fun a j ha => ?_, fun e he => ?_, hapart, fun j hj => ?_⟩
  · have hold := h.below j hj
    by_cases hji : j = i
    · rw [hji] at hold ⊢
      rcases hhandle with ⟨hsame, -⟩ | ⟨hnew, hmore⟩ <;> omega
    · rw [(used_ident (hothers j hji)).2]
      omega
  · have hbelow := h.below
    by_cases hji : j = i
    · have hki : k ≠ i := fun hki => hjk (hji.trans hki.symm)
      have hk' := hbelow k hk
      rw [hji, (used_ident (hothers k hki)).2]
      rcases hhandle with ⟨hsame, -⟩ | ⟨hnew, -⟩
      · rw [hsame]
        exact h.distinct i hi k hk (fun hik => hki hik.symm)
      · intro heq
        omega
    · by_cases hki : k = i
      · have hj' := hbelow j hj
        rw [hki, (used_ident (hothers j hji)).2]
        rcases hhandle with ⟨hsame, -⟩ | ⟨hnew, -⟩
        · rw [hsame]
          exact h.distinct j hj i hi hji
        · intro heq
          omega
      · rw [(used_ident (hothers j hji)).2, (used_ident (hothers k hki)).2]
        exact h.distinct j hj k hk hjk
  · rcases hreserved a j ha with ⟨hji, hold⟩ | ⟨rfl, hused⟩
    · rw [(used_ident (hothers j hji)).1]
      exact h.reserved a j hold
    · exact ⟨hi, hused⟩
  · rcases hissued e he with ⟨hold, hslot⟩ | ⟨hslot, hone, hident⟩
    · rw [hothers e.slot hslot]
      exact h.named e hold
    · rw [hslot]
      exact ⟨hi, hone, hident⟩
  · by_cases hji : j = i
    · rw [hji]
      exact howned
    · rw [(used_ident (hothers j hji)).1]
      rcases h.owned j hj with hfree | hheld | ⟨e, he, rfl⟩
      · exact Or.inl hfree
      · exact Or.inr (Or.inl hheld)
      · exact Or.inr (Or.inr ⟨e, hkept e he hji, rfl⟩)

/-- A slot that is free or reserved is not that of a handle in use. -/
theorem Inv.slot_ne (h : t.Inv) (hused : (t.srv.windows i).used ≠ 1) {e : GuiHandle} (he : e ∈ t.issued) : e.slot ≠ i := by
  rintro rfl
  exact hused (ident_eq (h.named e he).2.2).1

theorem reserveSlot_some {s srv : GuiSrv} (h : reserveSlot s = some (i, srv)) :
    i < guiSrvMaxWindows ∧ (s.windows i).used = 0 ∧ srv = s.setWindow i { s.windows i with used := 2 } := by
  rw [reserveSlot, Option.map_eq_some_iff] at h
  obtain ⟨j, hj, heq⟩ := h
  obtain ⟨rfl, rfl⟩ := Prod.mk.inj heq
  exact ⟨List.mem_range.mp (List.mem_of_find?_eq_some hj), by simpa using List.find?_some hj, rfl⟩

theorem Inv.create (h : t.Inv) (thread : Nat) (pid : Int) (title : Option (List UInt8)) (w hgt : Int) : Inv (t.step (.create thread pid title w hgt)) := by
  simp only [step]
  split
  swap
  · exact h
  rename_i hidle
  split
  · exact h
  split
  · exact h
  rename_i i srv hreserve
  obtain ⟨hi, hfree, rfl⟩ := reserveSlot_some hreserve
  have hcalls : ∀ a j, ((({ t with srv := t.srv.setWindow i { t.srv.windows i with used := 2 } } : GuiTrace).setCall thread
      (.creating pid i title w hgt)).calls a).slot = some j → a = thread ∧ j = i ∨ a ≠ thread ∧ (t.calls a).slot = some j ∧ j ≠ i := by
    intro a j ha
    by_cases hat : a = thread
    · simp only [GuiTrace.setCall, hat, Function.update_self] at ha
      exact Or.inl ⟨hat, (Option.some.inj ha).symm⟩
    · simp only [GuiTrace.setCall, Function.update_of_ne hat] at ha
      refine Or.inr ⟨hat, ha, ?_⟩
      rintro rfl
      have hheld := (h.reserved a j ha).2
      rw [hfree] at hheld
      exact absurd hheld (by decide)
  have hused : ((t.srv.setWindow i { t.srv.windows i with used := 2 }).windows i).used = 2 := by rw [setWindow_self]
  have hhandle : ((t.srv.setWindow i { t.srv.windows i with used := 2 }).windows i).handle = (t.srv.windows i).handle := by rw [setWindow_self]
  have hne : ∀ e ∈ t.issued, e.slot ≠ i := fun e he => h.slot_ne (by rw [hfree]; decide) he
  apply h.of_slot hi
  · intro j hji
    exact congrArg GuiWindow.ident (setWindow_of_ne t.srv _ hji)
  · exact Or.inl ⟨hhandle, rfl⟩
  · intro a b j hab ha hb
    rcases hcalls a j ha with ⟨hat, hji⟩ | ⟨hat, haold, hji⟩
    · rcases hcalls b j hb with ⟨hbt, -⟩ | ⟨-, -, hji'⟩
      · exact hab (hat.trans hbt.symm)
      · exact hji' hji
    · rcases hcalls b j hb with ⟨-, hji'⟩ | ⟨-, hbold, -⟩
      · exact hji hji'
      · exact h.creates a b j hab haold hbold
  · intro a j ha
    rcases hcalls a j ha with ⟨-, hji⟩ | ⟨-, hold, hji⟩
    · exact Or.inr ⟨hji, hused⟩
    · exact Or.inl ⟨hji, hold⟩
  · exact fun e he => Or.inl ⟨he, hne e he⟩
  · exact h.apart
  · exact fun e he _ => he
  · exact Or.inr (Or.inl hused)

theorem reallocateClientBuffer_cases (gw : GuiWindow) (pixels : Nat) (w hgt : Int) :
    ((reallocateClientBuffer gw pixels w hgt).1 ≠ guiOk ∧ (reallocateClientBuffer gw pixels w hgt).2 = gw) ∨
      ((reallocateClientBuffer gw pixels w hgt).1 = guiOk ∧
        (reallocateClientBuffer gw pixels w hgt).2 = { gw with pixels := pixels, clientW := w, clientH := hgt }) := by
  rw [reallocateClientBuffer]
  split
  · exact Or.inl ⟨by simp [guiErrInvalid, guiOk], rfl⟩
  split
  · exact Or.inl ⟨by simp [guiErrNomem, guiOk], rfl⟩
  · exact Or.inr ⟨rfl, rfl⟩

theorem evtEnqueue_nextHandle (s : GuiSrv) (i : Nat) (ev : TsukasaGuiEvent) : (evtEnqueue s i ev).nextHandle = s.nextHandle := by
  rw [evtEnqueue]
  split
  · rfl
  · simp only [GuiSrv.setWindow]
    split
    · split <;> rfl
    · rfl

/-- How the last part of a create ends. -/
theorem installWindow_cases (s : GuiSrv) (i : Nat) (pid : Int) (win : Nat) (title : Option (List UInt8)) (w hgt : Int) (pixels : Nat)
    (hpos : 1 ≤ s.nextHandle) (hnext : s.nextHandle < 2 ^ 31 - 1) {r : Int × GuiSrv} (hr : installWindow s i pid win title w hgt pixels = r) :
    r.2.nextHandle = s.nextHandle + 1 ∧ (∀ j, j ≠ i → (r.2.windows j).ident = (s.windows j).ident) ∧ (r.2.windows i).handle = s.nextHandle ∧
      (r.1 = guiErrNomem ∧ (r.2.windows i).used = 0 ∨
        r.1 = s.nextHandle ∧ (r.2.windows i).ident = (1, s.nextHandle, pid, win, pixels)) := by
  have hmod : (s.nextHandle + 1).bmod (2 ^ 32) = s.nextHandle + 1 := by
    apply Int.bmod_eq_of_le <;> omega
  simp only [installWindow, hmod] at hr
  generalize hgw : { s.windows i with
    used := 1, handle := s.nextHandle, ownerPid := pid, wmWin := win, pixels := 0, clientW := 0, clientH := 0
    title := (title.getD [65, 112, 112]).take (wmTitleMax - 1)
    resizable := true, dirtyPending := false, closePolicyAutoclose := false, closeRequested := false, droppedEvents := 0, droppedLowPriority := 0
    droppedOldest := 0, enqueuedEvents := 0
    queue := { (s.windows i).queue with head := 0, tail := 0, count := 0 } } = gw at hr
  have hhandle : gw.handle = s.nextHandle := hgw ▸ rfl
  rcases reallocateClientBuffer_cases gw pixels w hgt with ⟨herr, hsame⟩ | ⟨hok, hbuffer⟩
  · rw [if_pos herr, hsame] at hr
    subst hr
    refine ⟨rfl, fun j hj => ?_, ?_, Or.inl ⟨rfl, ?_⟩⟩
    · rw [setWindow_of_ne _ _ hj]
    · rw [setWindow_self]
      exact hhandle
    · rw [setWindow_self]
  · rw [if_neg (not_not.mpr hok), hbuffer] at hr
    subst hr
    generalize hset : GuiSrv.setWindow _ i _ = s'
    have hwindows : ∀ j, j ≠ i → (s'.windows j).ident = (s.windows j).ident := by
      intro j hj
      rw [← hset, setWindow_of_ne _ _ hj]
    have hself : (s'.windows i).ident = (1, s.nextHandle, pid, win, pixels) := by
      rw [← hset, setWindow_self, ← hgw]
      rfl
    have hpaint : SameIdent s' (queuePaintEvent s' i 0 0 w hgt) := by
      rw [queuePaintEvent]
      have hdirty : OnlyQueue s' (s'.setWindow i { s'.windows i with dirtyPending := true }) i := .of_update rfl rfl
      exact (hdirty.trans (evtEnqueue_only _ i _)).ident
    refine ⟨?_, fun j hj => (hpaint j).trans (hwindows j hj), ?_, Or.inr ⟨rfl, (hpaint i).trans hself⟩⟩
    · rw [queuePaintEvent, evtEnqueue_nextHandle, ← hset]
      rfl
    · have hident := (hpaint i).trans hself
      exact congrArg (fun x => x.2.1) hident

/-- The calls after a create has ended. -/
theorem ended_slot (h : t.Inv) {srv : GuiSrv} {issued : List GuiHandle} {thread : Nat} (hslot : (t.calls thread).slot = some i) {a j : Nat}
    (ha : ((({ t with srv := srv, issued := issued } : GuiTrace).setCall thread .idle).calls a).slot = some j) :
    (t.calls a).slot = some j ∧ j ≠ i := by
  by_cases hat : a = thread
  · simp only [GuiTrace.setCall, hat, Function.update_self] at ha
    exact absurd ha (by simp [GuiCall.slot])
  · simp only [GuiTrace.setCall, Function.update_of_ne hat] at ha
    refine ⟨ha, ?_⟩
    rintro rfl
    exact h.creates a thread j hat ha hslot

theorem Inv.createEnd (h : t.Inv) (thread win pixels : Nat) (hnext : t.srv.nextHandle < 2 ^ 31 - 1) : Inv (t.step (.createEnd thread win pixels)) := by
  simp only [step]
  split
  swap
  · exact h
  rename_i pid i title w hgt hcall
  have hslot : (t.calls thread).slot = some i := by rw [hcall]; rfl
  obtain ⟨hi, hheld⟩ := h.reserved thread i hslot
  have hne : ∀ e ∈ t.issued, e.slot ≠ i := fun e he => h.slot_ne (by rw [hheld]; decide) he
  split
  · have hused : ((releaseSlot t.srv i).windows i).used = 0 := by rw [releaseSlot, setWindow_self]
    have hhandle : ((releaseSlot t.srv i).windows i).handle = (t.srv.windows i).handle := by rw [releaseSlot, setWindow_self]
    apply h.of_slot hi
    · intro j hj
      exact congrArg GuiWindow.ident (setWindow_of_ne t.srv _ hj)
    · exact Or.inl ⟨hhandle, rfl⟩
    · intro a b j hab ha hb
      exact h.creates a b j hab (ended_slot h hslot ha).1 (ended_slot h hslot hb).1
    · intro a j ha
      obtain ⟨hold, hji⟩ := ended_slot h hslot ha
      exact Or.inl ⟨hji, hold⟩
    · exact fun e he => Or.inl ⟨he, hne e he⟩
    · exact h.apart
    · exact fun e he _ => he
    · exact Or.inl hused
  · generalize hr : installWindow t.srv i pid win title w hgt pixels = r
    obtain ⟨hmore, hothers, hhandle, hcase⟩ := installWindow_cases t.srv i pid win title w hgt pixels h.next hnext hr
    apply h.of_slot hi hothers (Or.inr ⟨hhandle, hmore⟩)
    · intro a b j hab ha hb
      exact h.creates a b j hab (ended_slot h hslot ha).1 (ended_slot h hslot hb).1
    · intro a j ha
      obtain ⟨hold, hji⟩ := ended_slot h hslot ha
      exact Or.inl ⟨hji, hold⟩
    · intro e he
      rcases hcase with ⟨herr, -⟩ | ⟨hret, hident⟩
      · have hneg : ¬ (0 : Int) < r.1 := by rw [herr]; decide
        simp only [GuiTrace.setCall, if_neg hneg] at he
        exact Or.inl ⟨he, hne e he⟩
      · have hpos : (0 : Int) < r.1 := by rw [hret]; exact h.next
        simp only [GuiTrace.setCall, if_pos hpos, List.mem_append, List.mem_singleton] at he
        rcases he with he | rfl
        · exact Or.inl ⟨he, hne e he⟩
        · refine Or.inr ⟨rfl, hpos, ?_⟩
          simp only [hret]
          exact hident
    · simp only [GuiTrace.setCall]
      split
      · rw [List.pairwise_append]
        refine ⟨h.apart, List.pairwise_singleton _ _, fun e he e' he' => ?_⟩
        rw [List.mem_singleton.mp he']
        exact hne e he
      · exact h.apart
    · intro e he _
      simp only [GuiTrace.setCall]
      split
      · exact List.mem_append_left _ he
      · exact he
    · rcases hcase with ⟨-, hfree⟩ | ⟨hret, -⟩
      · exact Or.inl hfree
      · have hpos : (0 : Int) < r.1 := by rw [hret]; exact h.next
        refine Or.inr (Or.inr ⟨⟨r.1, i, pid, win, pixels⟩, ?_, rfl⟩)
        simp only [GuiTrace.setCall, if_pos hpos]
        exact List.mem_append_right _ (List.mem_singleton.mpr rfl)

/-- A destroy does nothing, or it frees the slot of the one handle in use that it names. -/
theorem Inv.destroy_cases (h : t.Inv) {pid handle : Int} (hsafe : t.NotReserved pid handle) :
    ((t.destroyed pid handle).srv = t.srv ∧ ∀ e ∈ t.issued, ¬ (e.handle = handle ∧ e.pid = pid)) ∨
      ∃ e ∈ t.issued, e.handle = handle ∧ e.pid = pid ∧ (t.destroyed pid handle).srv.nextHandle = t.srv.nextHandle ∧
        (∀ j, j ≠ e.slot → (t.destroyed pid handle).srv.windows j = t.srv.windows j) ∧
        ((t.destroyed pid handle).srv.windows e.slot).used = 0 ∧
        ((t.destroyed pid handle).srv.windows e.slot).handle = (t.srv.windows e.slot).handle := by
  have hnames := h.sound.names
  simp only [destroyed, guiSrvWindowDestroy]
  cases hfind : findSlotByHandle t.srv handle with
  | none =>
      refine Or.inl ⟨rfl, fun e he heq => ?_⟩
      have hfound := (hnames e he).1
      rw [heq.1, hfind] at hfound
      exact Option.some_ne_none _ hfound.symm
  | some i =>
      by_cases howner : (t.srv.windows i).ownerPid = pid
      · have hfound := List.find?_some hfind
        have hi := List.mem_range.mp (List.mem_of_find?_eq_some hfind)
        simp only [decide_eq_true_eq] at hfound
        have hwindow : ∃ e ∈ t.issued, e.slot = i :=
          ((h.owned i hi).resolve_left hfound.1).resolve_left (hsafe i hfind howner)
        obtain ⟨e, he, rfl⟩ := hwindow
        obtain ⟨-, hhandle, hpid⟩ := ident_eq (h.named e he).2.2
        refine Or.inr ⟨e, he, hhandle.symm.trans hfound.2, hpid.symm.trans howner, ?_⟩
        simp only [if_neg (not_not.mpr howner)]
        refine ⟨rfl, fun j hj => setWindow_of_ne _ _ hj, ?_, ?_⟩
        · rw [setWindow_self]
        · rw [setWindow_self]
      · simp only [if_pos howner]
        refine Or.inl ⟨trivial, fun e he heq => howner ?_⟩
        have hfound := (hnames e he).1
        rw [heq.1, hfind] at hfound
        rw [Option.some.inj hfound, (ident_eq (h.named e he).2.2).2.2, heq.2]

theorem Inv.destroyed (h : t.Inv) {pid handle : Int} (hsafe : t.NotReserved pid handle) : Inv (t.destroyed pid handle) := by
  rcases h.destroy_cases hsafe with ⟨hsame, hnone⟩ | ⟨e, he, hhandle, hpid, hnext, hothers, hfree, hkept⟩
  · have hissued : (t.destroyed pid handle).issued = t.issued := by
      apply List.filter_eq_self.mpr
      intro e he
      exact decide_eq_true (hnone e he)
    have heq : t.destroyed pid handle = t := by
      cases t
      simp only [GuiTrace.destroyed] at hsame hissued ⊢
      rw [hsame, hissued]
    rw [heq]
    exact h
  · have hmem : ∀ e', e' ∈ (t.destroyed pid handle).issued ↔ e' ∈ t.issued ∧ ¬ (e'.handle = handle ∧ e'.pid = pid) := by
      intro e'
      simp only [GuiTrace.destroyed, List.mem_filter, decide_eq_true_eq]
    have hident := ident_eq (h.named e he).2.2
    apply h.of_slot (h.named e he).1
    · intro j hj
      rw [hothers j hj]
    · exact Or.inl ⟨hkept, hnext⟩
    · exact h.creates
    · intro a j ha
      left
      refine ⟨?_, ha⟩
      rintro rfl
      have hheld := (h.reserved a e.slot ha).2
      rw [hident.1] at hheld
      exact absurd hheld (by decide)
    · intro e' he'
      obtain ⟨hold, hother⟩ := (hmem e').mp he'
      refine Or.inl ⟨hold, fun hslot => hother ?_⟩
      have hident' := ident_eq (h.named e' hold).2.2
      rw [hslot] at hident'
      exact ⟨by rw [← hident'.2.1, hident.2.1, hhandle], by rw [← hident'.2.2, hident.2.2, hpid]⟩
    · exact h.apart.filter _
    · intro e' he' hslot
      refine (hmem e').mpr ⟨he', fun hboth => hslot ?_⟩
      have hfound := (h.sound.names e' he').1
      rw [hboth.1, ← hhandle, (h.sound.names e he).1] at hfound
      exact (Option.some.inj hfound).symm
    · exact Or.inl hfree

theorem Inv.cleanupNext (h : t.Inv) (thread : Nat) (hsafe : t.Safe (.cleanupNext thread)) :
    Inv (t.step (.cleanupNext thread)) ∧ t.CleanupOwn (.cleanupNext thread) := by
  simp only [CleanupOwn, step]
  cases hcall : t.calls thread with
  | idle => exact ⟨h, fun i hi => absurd rfl hi⟩
  | creating pid i title w hgt => exact ⟨h, fun i hi => absurd rfl hi⟩
  | scanning pid =>
      refine ⟨h.setCall thread ?_, fun i hi => absurd rfl hi⟩
      rw [hcall]
      split <;> rfl
  | cleaning pid handle =>
      have hdestroy : t.NotReserved pid handle := hsafe (pid, handle) (by rw [hcall]; rfl)
      refine ⟨(h.destroyed hdestroy).setCall thread ?_, fun i hi => ⟨(pid, handle), rfl, ?_⟩⟩
      · change GuiCall.slot _ = (t.calls thread).slot
        rw [hcall]
        rfl
      · rcases h.destroy_cases hdestroy with ⟨hsame, -⟩ | ⟨e, he, -, hpid, -, hothers, -⟩
        · exact absurd (congrFun (congrArg GuiSrv.windows hsame) i) hi
        · refine ⟨e, he, ?_, hpid⟩
          by_contra hne
          exact hi (hothers i fun heq => hne heq.symm)

theorem Inv.step (h : t.Inv) (a : GuiStep) (hsafe : t.Safe a) : Inv (t.step a) := by
  cases a with
  | create thread pid title w hgt => exact h.create thread pid title w hgt
  | createEnd thread win pixels => exact h.createEnd thread win pixels hsafe
  | destroy pid handle => exact h.destroyed hsafe
  | cleanup thread pid =>
      simp only [GuiTrace.step]
      split
      · rename_i hidle
        exact h.setCall thread (by rw [hidle]; rfl)
      · exact h
  | cleanupNext thread => exact (h.cleanupNext thread hsafe).1

end GuiTrace

open GuiTrace in
/-- In every run in which no destroy comes upon a reserved slot, slots and handles belong to one create, and a cleanup stays with its process. -/
theorem gui_slots_owned (s : GuiSrv) (steps : List GuiStep) (hsteps : Allowed Safe step (start s) steps) :
    Along Sound step (start s) steps ∧ Allowed CleanupOwn step (start s) steps := by
  have hstep : ∀ t a, GuiTrace.Inv t → t.Safe a → (t.step a).Inv := fun t a h hsafe => h.step a hsafe
  refine ⟨along_of_allowed (fun t h => h.sound) hstep (start_inv s) hsteps, allowed_of_invariant hstep (fun t a h hsafe => ?_) (start_inv s) hsteps⟩
  cases a with
  | cleanupNext thread => exact (h.cleanupNext thread hsafe).2
  | create thread pid title w hgt => trivial
  | createEnd thread win pixels => trivial
  | destroy pid handle => trivial
  | cleanup thread pid => trivial

/-- A service before its initialisation. -/
def zeroedGuiSrv : GuiSrv :=
  ⟨fun _ => ⟨0, 0, 0, 0, 0, 0, 0, [], false, false, false, false, 0, 0, 0, 0, ⟨fun _ => ⟨0, 0, 0, 0, 0, 0, 0⟩, 0, 0, 0⟩⟩, 0, ⟨0, 0, 0⟩⟩

open GuiTrace in
/-- Two processes make a window each, and one of them is cleaned up. -/
theorem gui_slots_owned_two :
    let steps := [GuiStep.create 1 1 none 10 10, .create 2 2 none 10 10, .createEnd 2 0x200 0x2000, .createEnd 1 0x100 0x1000, .cleanup 3 1,
      .cleanupNext 3, .cleanupNext 3, .create 2 2 none 10 10, .cleanupNext 3, .createEnd 2 0x100 0x1000]
    Along Sound step (start zeroedGuiSrv) steps ∧ Allowed CleanupOwn step (start zeroedGuiSrv) steps :=
  gui_slots_owned zeroedGuiSrv _ (by decide +kernel)

open GuiTrace in
/-- A cleanup frees the slot that another process has reserved, and a third one is given it. -/
theorem gui_slot_handed_twice :
    let steps := [GuiStep.create 1 1 none 10 10, .createEnd 1 0x100 0x1000, .destroy 1 1, .create 2 2 none 10 10, .cleanup 1 1, .cleanupNext 1,
      .cleanupNext 1, .create 3 3 none 10 10]
    ¬ (Along Sound step (start zeroedGuiSrv) steps ∧ Allowed CleanupOwn step (start zeroedGuiSrv) steps) := by
  intro steps h
  have hsecond : ((run step (start zeroedGuiSrv) steps).calls 2).slot = some 0 := by decide +kernel
  have hthird : ((run step (start zeroedGuiSrv) steps).calls 3).slot = some 0 := by decide +kernel
  exact h.1.last.creates 2 3 0 (by decide) hsecond hthird

end Tsukasa

import Tsukasa.Syscall.Ksprintf
import Tsukasa.Lib.Trim

/-!
# The pipeline of a command line

`user/lib/shell.c`. A line is cut at the bars outside quotes. There is room for 8 stages of 255 characters: the shell goes on with the stages it has when a ninth one begins, and drops the characters that do not fit before it trims a stage. What it turns down is a redirection without a target, or with one that cannot be opened.
-/

namespace Tsukasa

namespace Shell

open Lib (trim trim_take_iff trim_eq_nil_iff)

def maxSegments : Nat := 8

def maxStageLen : Nat := 256

def isWs (c : UInt8) : Bool := c = 32 || c = 9 || c = 10 || c = 13

def trimWs (s : List UInt8) : List UInt8 := trim isWs s

/-- The loop of `split_pipeline`. `stages` are the texts that are done, and `text` is the one in work, without its terminator. -/
def splitLoop (maxStages : Nat) : List UInt8 → List (List UInt8) → Bool → List UInt8 → List (List UInt8)
  | [], stages, _, text => if trimWs text ≠ [] then stages ++ [trimWs text] else stages
  | c :: line, stages, quote, text =>
      let quote := if c = 34 then !quote else quote
      if c = 124 ∧ quote = false then
        let stages := stages ++ [trimWs text]
        if maxStages ≤ stages.length then stages else splitLoop maxStages line stages quote []
      else splitLoop maxStages line stages quote (if text.length + 1 < maxStageLen then text ++ [c] else text)

/-- `split_pipeline`: the texts of the stages. -/
def splitPipeline (line : List UInt8) (maxStages : Nat) : List (List UInt8) := if maxStages = 0 then [] else splitLoop maxStages line [] false []

/-- The text in front of the first angle bracket outside quotes, and the text behind it. -/
def findRedirect : Bool → List UInt8 → Option (List UInt8 × List UInt8)
  | _, [] => none
  | quote, c :: stage =>
      let quote := if c = 34 then !quote else quote
      if quote = false ∧ c = 62 then some ([], stage) else (findRedirect quote stage).map fun r => (c :: r.1, r.2)

def isBlank (c : UInt8) : Bool := c = 32 || c = 9

/-- The target behind an angle bracket. -/
def redirectTarget (after : List UInt8) : List UInt8 :=
  let after := if after.head? = some 62 then after.tail else after
  let after := after.dropWhile isBlank
  let after := if after.head? = some 34 then after.tail else after
  after.takeWhile fun c => c ≠ 34 && !isBlank c

structure Redirection where
  ret : Int
  stage : List UInt8
  path : List UInt8
  append : Bool

def extractRedirection (stage : List UInt8) (outCap : Nat) : Redirection :=
  match findRedirect false stage with
  | none => ⟨0, stage, [], false⟩
  | some (before, after) =>
      let path := (redirectTarget after).take (outCap - 1)
      ⟨if path ≠ [] then 0 else -1, trimWs before, path, after.head? = some 62⟩

/-- `first_token`, with the empty text where there is none. -/
def firstToken (s : List UInt8) (cap : Nat) : List UInt8 := ((s.dropWhile isBlank).takeWhile fun c => !isBlank c).take (cap - 1)

/-- What `shell_exec_line` comes to before it makes its pipes. -/
inductive Front where
  | nothing
  | rejected
  | cd (stage : List UInt8)
  | run (stages : List (List UInt8)) (path : List UInt8) (append : Bool)
deriving DecidableEq

/-- `cd` on its own is a command of the shell. -/
def IsCd (stages : List (List UInt8)) : Prop := stages.length = 1 ∧ firstToken (stages.headD []) 32 = ascii "cd"

instance (stages : List (List UInt8)) : Decidable (IsCd stages) := inferInstanceAs (Decidable (stages.length = 1 ∧ firstToken (stages.headD []) 32 = ascii "cd"))

/-- `shell_exec_line` up to there. `opens` says whether a path can be opened for a redirection. -/
def shellExecLine (opens : List UInt8 → Bool → Bool) (line : List UInt8) : Front :=
  let stages := splitPipeline line maxSegments
  match stages.getLast? with
  | none => .nothing
  | some last =>
      let r := extractRedirection last 128
      let stages := stages.dropLast ++ [r.stage]
      if r.ret ≠ 0 then .rejected
      else if IsCd stages then .cd (stages.headD [])
      else if r.path ≠ [] ∧ opens r.path r.append = false then .rejected
      else .run stages r.path r.append

/-! ### What a line says -/

/-- The substrings between the bars outside quotes. -/
def segments : Bool → List UInt8 → List (List UInt8)
  | _, [] => [[]]
  | quoted, c :: line =>
      let quoted := if c = 34 then !quoted else quoted
      if c = 124 ∧ quoted = false then [] :: segments quoted line else (segments quoted line).modifyHead (c :: ·)

def omitLast (stages : List (List UInt8)) : List (List UInt8) := if stages.getLast? = some [] then stages.dropLast else stages

/-- The stages of a line: the substrings, trimmed, without an empty one at the end. -/
def stagesOf (line : List UInt8) : List (List UInt8) := omitLast ((segments false line).map trimWs)

/-- A redirection that is turned down: it has no target, or one that cannot be opened. -/
def Refused (opens : List UInt8 → Bool → Bool) (stages : List (List UInt8)) : Prop :=
  ∃ last before after, stages.getLast? = some last ∧ findRedirect false last = some (before, after) ∧
    (redirectTarget after = [] ∨ ¬ IsCd (stages.dropLast ++ [trimWs before]) ∧ opens ((redirectTarget after).take 127) (after.head? = some 62) = false)

/-- The line has at most 8 stages, and each of them has at most 255 characters up to its last one that is no white space. -/
structure Fits (line : List UInt8) : Prop where
  count : (stagesOf line).length ≤ maxSegments
  length : ∀ s ∈ segments false line, (s.rdropWhile isWs).length ≤ maxStageLen - 1

/-- What there is room for. -/
def keep (n : Nat) (segs : List (List UInt8)) : List (List UInt8) :=
  let texts := segs.map fun s => trimWs (s.take (maxStageLen - 1))
  if segs.length ≤ n then omitLast texts else texts.take n

variable {line raw before after last : List UInt8} {segs stages texts texts' : List (List UInt8)} {quote : Bool} {maxStages n : Nat} {c : UInt8}

theorem segments_ne_nil (quote : Bool) (line : List UInt8) : segments quote line ≠ [] := by
  cases line with
  | nil => exact List.cons_ne_nil _ _
  | cons c line =>
      rw [segments]
      generalize (if c = 34 then !quote else quote) = quoted
      split
      · exact List.cons_ne_nil _ _
      · have hne := segments_ne_nil quoted line
        rw [ne_eq, List.modifyHead_eq_nil_iff]
        exact hne

/-- The substrings and the bars between them make up the line. -/
theorem intercalate_segments (quote : Bool) (line : List UInt8) : [124].intercalate (segments quote line) = line := by
  induction line generalizing quote with
  | nil => rfl
  | cons c line ih =>
      rw [segments]
      generalize (if c = 34 then !quote else quote) = quoted
      have hline := ih quoted
      obtain ⟨s, rest, hsegs⟩ := List.exists_cons_of_ne_nil (segments_ne_nil quoted line)
      rw [hsegs] at hline ⊢
      split
      · rename_i hbar
        rw [List.intercalate_cons_cons, hline, hbar.1]
        rfl
      · cases rest with
        | nil => exact congrArg (c :: ·) hline
        | cons t rest =>
            rw [List.intercalate_cons_cons] at hline
            rw [List.modifyHead_cons, List.intercalate_cons_cons, List.cons_append, List.cons_append, hline]

/-- A bar within a substring is inside quotes: an odd number of them is open in front of it. -/
def BarsQuoted (quote : Bool) (s : List UInt8) : Prop := ∀ before after, s = before ++ 124 :: after → (before.count 34 % 2 = 1 ↔ quote = false)

theorem segments_quoted (quote : Bool) (line : List UInt8) :
    ∃ s rest, segments quote line = s :: rest ∧ BarsQuoted quote s ∧ ∀ t ∈ rest, BarsQuoted false t := by
  induction line generalizing quote with
  | nil => exact ⟨[], [], rfl, fun before after h => absurd h.symm (List.append_ne_nil_of_right_ne_nil before (List.cons_ne_nil _ _)), nofun⟩
  | cons c line ih =>
      rw [segments]
      generalize hquoted : (if c = 34 then !quote else quote) = quoted
      obtain ⟨s, rest, hsegs, hs, hrest⟩ := ih quoted
      rw [hsegs]
      split
      · rename_i hbar
        rw [hbar.2] at hs
        exact ⟨[], s :: rest, rfl, fun before after h => absurd h.symm (List.append_ne_nil_of_right_ne_nil before (List.cons_ne_nil _ _)),
          List.forall_mem_cons.mpr ⟨hs, hrest⟩⟩
      · rename_i hbar
        refine ⟨c :: s, rest, rfl, ?_, hrest⟩
        intro before after h
        cases before with
        | nil =>
            have hc : c = 124 := (List.cons.inj h).1
            rw [hc, if_neg (by decide)] at hquoted
            rw [← hquoted] at hbar
            simp only [hc, true_and] at hbar
            exact ⟨nofun, fun h => absurd h hbar⟩
        | cons b before =>
            obtain ⟨rfl, hinner⟩ := List.cons.inj h
            have hparity := hs before after hinner
            rw [List.count_cons]
            by_cases hquote : c = 34
            · rw [if_pos hquote] at hquoted
              rw [if_pos (by rw [hquote]; rfl)]
              rw [← hquoted] at hparity
              cases quote <;> simp only [Bool.not_true, Bool.not_false, Bool.true_eq_false, iff_true, iff_false] at hparity ⊢ <;> omega
            · rw [if_neg hquote] at hquoted
              rw [if_neg (by simpa using hquote), hquoted]
              exact hparity

/-! ### What the loop keeps -/

theorem omitLast_cons (s : List UInt8) (htexts : texts ≠ []) : omitLast (s :: texts) = s :: omitLast texts := by
  obtain ⟨t, rest, rfl⟩ := List.exists_cons_of_ne_nil htexts
  rw [omitLast, omitLast, List.getLast?_cons_cons, List.dropLast_cons_of_ne_nil (List.cons_ne_nil t rest)]
  split <;> rfl

theorem keep_cons (s : List UInt8) (hsegs : segs ≠ []) (n : Nat) : keep (n + 1) (s :: segs) = trimWs (s.take (maxStageLen - 1)) :: keep n segs := by
  rw [keep, keep]
  rw [List.length_cons, List.map_cons, List.take_succ_cons, omitLast_cons _ (by rw [ne_eq, List.map_eq_nil_iff]; exact hsegs)]
  by_cases hlen : segs.length ≤ n
  · rw [if_pos hlen, if_pos (by omega)]
  · rw [if_neg hlen, if_neg (by omega)]

/-- A character behind the 255th is dropped. -/
theorem push_take (raw : List UInt8) (c : UInt8) :
    (if (raw.take (maxStageLen - 1)).length + 1 < maxStageLen then raw.take (maxStageLen - 1) ++ [c] else raw.take (maxStageLen - 1)) =
      (raw ++ [c]).take (maxStageLen - 1) := by
  rw [List.length_take, maxStageLen]
  split
  · rw [List.take_of_length_le (l := raw) (by omega), List.take_of_length_le (by rw [List.length_append, List.length_singleton]; omega)]
  · rw [List.take_append_of_le_length (by omega)]

theorem splitLoop_eq (hroom : stages.length < maxStages) :
    splitLoop maxStages line stages quote (raw.take (maxStageLen - 1)) =
      stages ++ keep (maxStages - stages.length) ((segments quote line).modifyHead (raw ++ ·)) := by
  induction line generalizing stages quote raw with
  | nil =>
      rw [splitLoop, segments, List.modifyHead_cons, List.append_nil, keep]
      have hlen : [raw].length ≤ maxStages - stages.length := by
        rw [List.length_singleton]
        omega
      rw [if_pos hlen, List.map_singleton, omitLast]
      generalize trimWs (raw.take (maxStageLen - 1)) = text
      by_cases hempty : text = []
      · rw [if_neg (not_not.mpr hempty), hempty]
        exact (List.append_nil stages).symm
      · rw [if_pos hempty, if_neg]
        intro h
        exact hempty (Option.some.inj h)
  | cons c line ih =>
      rw [splitLoop, segments]
      dsimp only
      generalize (if c = 34 then !quote else quote) = quoted
      split
      · obtain ⟨n, hn⟩ := Nat.exists_eq_add_one_of_ne_zero (show maxStages - stages.length ≠ 0 by omega)
        have hne := segments_ne_nil quoted line
        rw [List.modifyHead_cons, List.append_nil, hn, keep_cons _ hne, List.length_append, List.length_singleton]
        split
        · have hzero : keep n (segments quoted line) = [] := by
            rw [show n = 0 by omega, keep, if_neg (by rw [Nat.le_zero, List.length_eq_zero_iff]; exact hne)]
            exact List.take_zero
          rw [hzero]
        · have hrest := @ih [] (stages ++ [trimWs (raw.take (maxStageLen - 1))]) quoted
            (by rw [List.length_append, List.length_singleton]; omega)
          rw [List.take_nil] at hrest
          rw [hrest, List.length_append, List.length_singleton, show maxStages - (stages.length + 1) = n by omega, List.append_assoc]
          simp only [List.nil_append, List.singleton_append]
          rw [show (fun s : List UInt8 => s) = id from rfl, List.modifyHead_id]
          rfl
      · rw [push_take, ih hroom, List.modifyHead_modifyHead]
        congr 3
        funext s
        exact List.append_cons raw c s |>.symm

/-- The stages that `split_pipeline` leaves. -/
theorem splitPipeline_eq (line : List UInt8) : splitPipeline line maxSegments = keep maxSegments (segments false line) := by
  have hloop := @splitLoop_eq line [] [] false maxSegments (by decide)
  rw [splitPipeline, if_neg (by decide)]
  rw [List.take_nil] at hloop
  rw [hloop]
  simp only [List.nil_append]
  rw [show (fun s : List UInt8 => s) = id from rfl, List.modifyHead_id]
  rfl

/-! ### When this is the whole line -/

theorem omitLast_concat (texts : List (List UInt8)) (s : List UInt8) : omitLast (texts ++ [s]) = if s = [] then texts else texts ++ [s] := by
  rw [omitLast, List.getLast?_concat, List.dropLast_concat]
  by_cases hs : s = []
  · rw [if_pos hs, if_pos (congrArg some hs)]
  · rw [if_neg hs, if_neg fun h => hs (Option.some.inj h)]

theorem omitLast_inj (hlen : texts.length = texts'.length) (h : omitLast texts = omitLast texts') : texts = texts' := by
  rcases List.eq_nil_or_concat texts with rfl | ⟨init, s, rfl⟩
  · exact (List.length_eq_zero_iff.mp hlen.symm).symm
  · rcases List.eq_nil_or_concat texts' with rfl | ⟨init', s', rfl⟩
    · exact List.length_eq_zero_iff.mp hlen
    · rw [List.concat_eq_append, List.concat_eq_append] at hlen h ⊢
      rw [List.length_append, List.length_append, List.length_singleton, List.length_singleton] at hlen
      rw [omitLast_concat, omitLast_concat] at h
      split_ifs at h with hs hs' hs'
      · rw [h, hs, hs']
      · have := congrArg List.length h
        rw [List.length_append, List.length_singleton] at this
        omega
      · have := congrArg List.length h
        rw [List.length_append, List.length_singleton] at this
        omega
      · exact h

theorem cut_eq_iff (s : List UInt8) : trimWs (s.take (maxStageLen - 1)) = trimWs s ↔ (s.rdropWhile isWs).length ≤ maxStageLen - 1 :=
  trim_take_iff isWs s (maxStageLen - 1)

/-- What is kept is everything as long as there is room for all stages and all characters. -/
theorem keep_eq_iff (segs : List (List UInt8)) (n : Nat) : keep n segs = omitLast (segs.map trimWs) ↔
    (omitLast (segs.map trimWs)).length ≤ n ∧ ∀ s ∈ segs, (s.rdropWhile isWs).length ≤ maxStageLen - 1 := by
  have hcut : (∀ s ∈ segs, (s.rdropWhile isWs).length ≤ maxStageLen - 1) ↔ segs.map (fun s => trimWs (s.take (maxStageLen - 1))) = segs.map trimWs := by
    rw [List.map_inj_left]
    exact forall₂_congr fun s _ => (cut_eq_iff s).symm
  by_cases hlen : segs.length ≤ n
  · have hshort : (omitLast (segs.map trimWs)).length ≤ n := by
      rw [omitLast]
      split
      · rw [List.length_dropLast, List.length_map]
        omega
      · rw [List.length_map]
        exact hlen
    rw [keep, if_pos hlen, hcut]
    constructor
    · intro h
      exact ⟨hshort, omitLast_inj (by rw [List.length_map, List.length_map]) h⟩
    · intro h
      exact congrArg omitLast h.2
  · obtain ⟨init, z, rfl⟩ := (List.eq_nil_or_concat segs).resolve_left fun h => hlen (by rw [h]; exact Nat.zero_le n)
    rw [List.concat_eq_append] at hlen hcut ⊢
    rw [List.length_append, List.length_singleton] at hlen
    rw [keep, if_neg (by rw [List.length_append, List.length_singleton]; exact hlen), hcut]
    rw [List.map_append, List.map_append, List.map_singleton, List.map_singleton, omitLast_concat]
    by_cases hz : trimWs z = []
    · rw [if_pos hz]
      have hblank : trimWs (z.take (maxStageLen - 1)) = [] :=
        trim_eq_nil_iff.mpr fun c hc => trim_eq_nil_iff.mp hz c (List.mem_of_mem_take hc)
      rw [hblank, hz, List.append_left_inj]
      constructor
      · intro h
        have hlength := congrArg List.length h
        rw [List.length_take, List.length_append, List.length_map, List.length_map, List.length_singleton] at hlength
        rw [List.take_append_of_le_length (by rw [List.length_map]; omega), List.take_of_length_le (by rw [List.length_map]; omega)] at h
        exact ⟨by rw [List.length_map]; omega, h⟩
      · intro h
        have hlength := h.1
        rw [List.length_map] at hlength
        rw [List.take_append_of_le_length (by rw [List.length_map]; omega), List.take_of_length_le (by rw [List.length_map]; omega)]
        exact h.2
    · rw [if_neg hz]
      constructor
      · intro h
        have hlength := congrArg List.length h
        rw [List.length_take, List.length_append, List.length_append, List.length_map, List.length_map, List.length_singleton, List.length_singleton]
          at hlength
        omega
      · intro h
        have hlength := h.1
        rw [List.length_append, List.length_map, List.length_singleton] at hlength
        omega

theorem splitPipeline_eq_iff (line : List UInt8) : splitPipeline line maxSegments = stagesOf line ↔ Fits line := by
  rw [splitPipeline_eq, stagesOf, keep_eq_iff]
  exact ⟨fun h => ⟨h.1, h.2⟩, fun h => ⟨h.count, h.length⟩⟩

theorem target_eq_nil_iff (after : List UInt8) : (redirectTarget after).take 127 = [] ↔ redirectTarget after = [] := by
  rw [List.take_eq_nil_iff]
  exact or_iff_right (by decide)

theorem extractRedirection_some (h : findRedirect false last = some (before, after)) : extractRedirection last 128 =
    ⟨if redirectTarget after = [] then -1 else 0, trimWs before, (redirectTarget after).take 127, after.head? = some 62⟩ := by
  rw [extractRedirection, h]
  dsimp only
  rw [ite_not, if_congr (target_eq_nil_iff after) rfl rfl]

theorem refused_iff (opens : List UInt8 → Bool → Bool) (hlast : stages.getLast? = some last) (h : findRedirect false last = some (before, after)) :
    Refused opens stages ↔ redirectTarget after = [] ∨ ¬ IsCd (stages.dropLast ++ [trimWs before]) ∧
      opens ((redirectTarget after).take 127) (after.head? = some 62) = false := by
  constructor
  · intro hrefused
    obtain ⟨last', before', after', hlast', hsome', hturned⟩ := hrefused
    rw [← Option.some.inj (hlast.symm.trans hlast'), h] at hsome'
    cases hsome'
    exact hturned
  · exact fun hturned => ⟨last, before, after, hlast, h, hturned⟩

/-- What the shell turns down before it starts anything. -/
theorem shellExecLine_rejected_iff (opens : List UInt8 → Bool → Bool) (line : List UInt8) :
    shellExecLine opens line = .rejected ↔ Refused opens (splitPipeline line maxSegments) := by
  rw [shellExecLine]
  generalize splitPipeline line maxSegments = stages
  cases hlast : stages.getLast? with
  | none =>
      constructor
      · exact nofun
      · intro h
        obtain ⟨last, before, after, hlast', -⟩ := h
        exact absurd (hlast.symm.trans hlast') (Option.some_ne_none last).symm
  | some last =>
      dsimp only
      cases hredirect : findRedirect false last with
      | none =>
          have hnone : extractRedirection last 128 = ⟨0, last, [], false⟩ := by
            rw [extractRedirection, hredirect]
          rw [hnone, if_neg (not_not.mpr rfl)]
          constructor
          · intro h
            split_ifs at h with hcd hopen
            exact absurd rfl hopen.1
          · intro h
            obtain ⟨last', before, after, hlast', hsome, -⟩ := h
            rw [← Option.some.inj (hlast.symm.trans hlast'), hredirect] at hsome
            cases hsome
      | some r =>
          obtain ⟨before, after⟩ := r
          rw [extractRedirection_some hredirect, refused_iff opens hlast hredirect]
          dsimp only
          by_cases hempty : redirectTarget after = []
          · rw [if_pos hempty, if_pos (by decide)]
            exact ⟨fun _ => .inl hempty, fun _ => rfl⟩
          · rw [if_neg hempty, if_neg (by decide)]
            by_cases hcd : IsCd (stages.dropLast ++ [trimWs before])
            · rw [if_pos hcd]
              exact ⟨nofun, fun h => absurd hcd (h.resolve_left hempty).1⟩
            · rw [if_neg hcd]
              constructor
              · intro h
                split_ifs at h with hopen
                exact .inr ⟨hcd, hopen.2⟩
              · intro h
                rw [if_pos ⟨fun h => hempty ((target_eq_nil_iff after).mp h), (h.resolve_left hempty).2⟩]

/-- A line comes through unchanged, or is turned down, just when it fits or the last stage that is kept of it has a redirection that is turned down. -/
theorem lossless_iff (opens : List UInt8 → Bool → Bool) (line : List UInt8) :
    splitPipeline line maxSegments = stagesOf line ∨ shellExecLine opens line = .rejected ↔
      Fits line ∨ Refused opens (keep maxSegments (segments false line)) := by
  rw [splitPipeline_eq_iff, shellExecLine_rejected_iff, splitPipeline_eq]

/-- The ninth stage is dropped. -/
theorem ninth_dropped : ¬ (splitPipeline (ascii "a|b|c|d|e|f|g|h|i") maxSegments = stagesOf (ascii "a|b|c|d|e|f|g|h|i") ∨
    shellExecLine (fun _ _ => true) (ascii "a|b|c|d|e|f|g|h|i") = .rejected) := by
  decide

end Shell

end Tsukasa

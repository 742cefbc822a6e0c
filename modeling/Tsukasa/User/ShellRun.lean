import Tsukasa.Lib.Dialogue
import Tsukasa.User.Shell

/-!
# The calls of a command line

`shell_exec_line` with its system calls. Each of them may be answered in any way, so that the commands, other processes and every failure are covered.
-/

namespace Tsukasa

namespace Shell

structure SpawnRequest where
  path : List UInt8
  args : List UInt8
  stdinFd : Int
  stdoutFd : Int
  stderrFd : Int
  ttyId : Int

/-- A redirection is opened for writing and created, to append or to truncate. -/
inductive ShellCall where
  | openFile (path : List UInt8) (append : Bool)
  | pipe
  | spawnEx (req : SpawnRequest)
  | waitpid (pid : Int)
  | close (fd : Int)
  | chdir (path : List UInt8)
  | dprintf (fd : Int) (fmt : String) (arg : List UInt8)

/-- What a call returns, and the numbers that it stores for the shell: the ends of a pipe, or a status. -/
structure Answer where
  ret : Int
  fst : Int
  snd : Int

abbrev Talk := Lib.Dialogue ShellCall Answer Int

open Lib.Dialogue (done ask)

/-- The commands that `resolve_command` names. -/
def binCommands : List String := ["help", "echo", "pwd", "date", "sort", "sysfetch", "man", "grep", "cat", "net", "ping", "telnet", "abi-test"]

def resolveCommand (cmd : List UInt8) (cap : Nat) : List UInt8 :=
  if 47 ∈ cmd then cmd.take (cap - 1)
  else if cmd ∈ binCommands.map ascii then (ascii "/bin/" ++ cmd).take (cap - 1)
  else
    let path := (ascii "/bin/").take (cap - 1)
    if path.length + cmd.length + 1 < cap then path ++ cmd else path

/-- The request for stage `i` of `n`, if it has a command. -/
def request (pipes : List (Int × Int)) (n : Nat) (last errFd : Int) (stage : List UInt8 × Nat) : Option SpawnRequest :=
  let (text, i) := stage
  let outTarget := if i + 1 = n then last else (pipes.getD i (-1, -1)).2
  let inTarget := if i = 0 then 0 else (pipes.getD (i - 1) (-1, -1)).1
  if firstToken text 32 = [] then none else some ⟨resolveCommand (firstToken text 32) 64, text, inTarget, outTarget, errFd, -1⟩

def closeAll (status : Int) : List Int → Talk
  | [] => done status
  | fd :: fds => if 0 ≤ fd then ask (.close fd) fun _ => closeAll status fds else closeAll status fds

/-- The descriptors that are given and closed, the requests with their answers, and the processes that are waited for. -/
structure Traffic where
  opened : List Int
  pipes : List (Int × Int)
  closed : List Int
  spawned : List (SpawnRequest × Int)
  waited : List Int

namespace Traffic

def after (t : Traffic) (c : ShellCall) (a : Answer) : Traffic :=
  match c with
  | .openFile _ _ => if a.ret < 0 then t else { t with opened := t.opened ++ [a.ret] }
  | .pipe => if a.ret ≠ 0 then t else { t with pipes := t.pipes ++ [(a.fst, a.snd)] }
  | .spawnEx req => { t with spawned := t.spawned ++ [(req, a.ret)] }
  | .waitpid pid => { t with waited := t.waited ++ [pid] }
  | .close fd => { t with closed := t.closed ++ [fd] }
  | _ => t

def none : Traffic := ⟨[], [], [], [], []⟩

/-- The requests for the stages: each stage reads from the pipe that the stage before it writes to. -/
def requests (t : Traffic) (stages : List (List UInt8)) (outFd errFd : Int) : List SpawnRequest :=
  stages.zipIdx.filterMap (request t.pipes stages.length (t.opened.headD outFd) errFd)

/-- The processes that are waited for when the requests have gone as they have. -/
def Awaits (t : Traffic) (requests : List SpawnRequest) : Prop :=
  t.spawned.map Prod.fst <+: requests ∧
    (t.waited = [] ∧ (t.spawned = [] ∨ ∃ s ∈ t.spawned, s.2 < 0) ∨
      t.waited = t.spawned.map Prod.snd ∧ (∀ s ∈ t.spawned, 0 ≤ s.2) ∧ t.spawned.map Prod.fst = requests)

/-- What the shell has called when it is done with a line. -/
structure Settled (stages : List (List UInt8)) (outFd errFd : Int) (t : Traffic) : Prop where
  closed : t.closed = (t.pipes.flatMap fun p => [p.1, p.2]).filter (0 ≤ ·) ++ t.opened
  awaits : t.Awaits (t.requests stages outFd errFd)

end Traffic

open Traffic (Settled)

variable {post : Traffic → Prop} {t : Traffic} {errFd : Int}

/-- The stages that are run. -/
def Front.stages : Front → List (List UInt8)
  | .run stages _ _ => stages
  | _ => []

end Shell

open Shell

end Tsukasa

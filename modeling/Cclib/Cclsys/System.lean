import Cclib.Lib.Ownership
import Cclib.Lib.Runs

/-!
# `Cclsys.System` — `file_c`, `pipe_c`, `socket_c` and `pid_c` objects in a process

The objects of the four classes that stand for something of the operating system: an open `FILE *`, a pipe to a
command, a socket descriptor, a child process. What the operating system hands out is numbered (`Resource`), and
a member `m_file`, `m_fd` or `m_pid` is modelled by the number of the resource its value was obtained as; so two
descriptors stay two resources when the system reuses a descriptor number. A value-initialised `socket_c` holds the
descriptor 0, which is none of these resources (`Handle.standard`), although the system may hand it out as one later:
who owns what is therefore told for runs in which no `accept` makes such an object.

Every operation takes the answers of the system calls it makes as arguments. `history` records, latest first, what
was handed out, which object was moved from which, and the calls that give something back or concern a process.
-/

namespace Cclib
namespace Cclsys

open Ownership

/-! ## Texts of the exceptions -/

def error_SYSTEM_MISSING_PROGRAM_NAME : String := "missing name of program to execute"
def error_SYSTEM_CANNOT_CREATE_NEW_PROCESS : String := "cannot create new process"
def error_STREAM_NOT_OPENED : String := "stream is not opened"
def error_STREAM_READ_ERROR : String := "error while reading from stream"
def error_PIPE_OPEN_ERROR : String := "cannot open pipe"
def error_PIPE_CLOSE_ERROR : String := "cannot close pipe"
def error_PIPE_NOT_OPENED : String := "pipe is not opened"
def error_FILE_OPEN_ERROR : String := "cannot open file"
def error_FILE_CLOSE_ERROR : String := "cannot close file"
def error_FILE_NOT_OPENED : String := "file is not opened"
def error_SOCKET_CREATE_ERROR : String := "cannot create socket"
def error_SOCKET_NOT_OPENED : String := "socket is not opened"
def error_SOCKET_CLOSE_ERROR : String := "cannot close socket"
def error_SOCKET_UNKNOWN_DOMAIN : String := "unknown (unimplemented) socket domain"
def error_SOCKET_ACCEPT_ERROR : String := "error while accepting connection"
def error_SOCKET_ADDRESS_UNKNOWN_FORMAT : String := "unknown socket address format"

/-! ## State -/

inductive Class where
  | file
  | pipe
  | socket
  | pid
deriving DecidableEq, Repr

/-- What `fopen`, `popen`, `socket` or `accept`, and `fork` hand out. -/
inductive Resource where
  | stream
  | pipe
  | descriptor
  | child (pid : Int)
deriving DecidableEq, Repr

/-- The value of a member that is not `nullptr` or `-1`. -/
inductive Handle where
  /-- the `n`-th resource -/
  | of (n : Nat)
  /-- a standard stream, or the descriptor 0: there without having been obtained -/
  | standard
deriving DecidableEq, Repr

def Handle.id : Handle → Option Nat
  | .of n => some n
  | .standard => none

/-- A call that gives a stream or a descriptor back. -/
inductive Call where
  | fclose
  | pclose
  | close
deriving DecidableEq, Repr

/-- What the call reports counts as a failure; `pclose` returns the status of the command. -/
def Call.failed : Call → Int → Bool
  | .fclose => (· ≠ 0)
  | .pclose => (· = -1)
  | .close => (· ≠ 0)

inductive Event where
  /-- object `x` was handed out resource `n` -/
  | acquired (x n : Nat)
  /-- object `y` was moved from object `x` -/
  | moved (x y : Nat)
  /-- object `x` made the call with its handle -/
  | released (call : Call) (x : Nat) (h : Handle)
  /-- object `x` called `waitpid` for a process -/
  | waited (x : Nat) (pid : Int)
  /-- object `x` called `kill` on a process -/
  | killed (x : Nat) (pid : Int)
  /-- `waitpid` returned the status of child `n` -/
  | reaped (n : Nat)
deriving DecidableEq, Repr

/-- What happens while `terminate` or the destructor of a `pid_c` runs: who exits before the first `waitpid`, whether
    `kill` succeeds, who exits before the second `waitpid` returns. -/
structure Timing where
  before : List Nat
  kill : Bool
  after : List Nat
deriving DecidableEq, Repr

/-- How `::accept`, and what comes before it, goes. -/
inductive Accept where
  /-- the socket is not of the domain `AF_INET` -/
  | foreignDomain
  /-- no connection is pending: `EAGAIN` or `EWOULDBLOCK` -/
  | again
  /-- another failure -/
  | failed
  /-- a connection, with an address that is no `sockaddr_in` -/
  | foreignAddress
  | connected
deriving DecidableEq, Repr

structure System where
  objects : Objects Class Handle
  resources : List Resource
  /-- children that have exited -/
  exited : List Nat
  history : List Event
deriving DecidableEq, Repr

/-- What an operation throws, if it throws. -/
abbrev Outcome := Option String

namespace System

def empty : System := ⟨[], [], [], []⟩

/-- The value of the object's member; `none` is `nullptr` or `-1`. -/
def handle (s : System) (x : Nat) : Option Handle := (get s.objects x).bind Slot.handle

def log (s : System) (e : Event) : System := { s with history := e :: s.history }

def setHandle (s : System) (x : Nat) (h : Option Handle) : System :=
  { s with objects := Ownership.setHandle s.objects x h }

def destroy (s : System) (x : Nat) : System := { s with objects := Ownership.destroy s.objects x }

/-- A new object with a new resource. -/
def acquire (s : System) (cls : Class) (r : Resource) : System where
  objects := new s.objects ⟨cls, some (.of s.resources.length)⟩
  resources := s.resources ++ [r]
  exited := s.exited
  history := .acquired s.objects.length s.resources.length :: s.history

/-- The child that a resource is. -/
def childPid (s : System) (n : Nat) : Option Int :=
  match s.resources[n]? with
  | some (.child pid) => some pid
  | _ => none

/-- The number that a handle is as a `pid_t`. -/
def pidOf (s : System) : Option Handle → Int
  | none => -1
  | some (.of n) => (s.childPid n).getD 0
  | some .standard => 0

end System

/-- The children whose status `waitpid` has returned. -/
def reapedIds (history : List Event) : List Nat :=
  history.filterMap (fun e => match e with | .reaped n => some n | _ => none)

/-- The resources that were passed to `fclose`, `pclose` or `close`. -/
def releasedIds (history : List Event) : List Nat :=
  history.filterMap (fun e => match e with | .released _ _ h => h.id | _ => none)

namespace System

/-! ## Processes -/

/-- The children that have not been reaped and that `waitpid(pid, …)` waits for. -/
def children (s : System) (pid : Int) : List Nat :=
  (List.range s.resources.length).filter (fun n =>
    decide (n ∉ reapedIds s.history) && (s.childPid n).any (fun p => pid = -1 ∨ p = pid))

/-- Object `x` calls `waitpid` on its `m_pid`; the children `exits` exit before it looks or while it waits. -/
def waiting (s : System) (x : Nat) (exits : List Nat) : System :=
  { s with exited := exits ++ s.exited }.log (.waited x (s.pidOf (s.handle x)))

/-- `waitpid`, and what it returns. When none that it waits for has exited, that is 0 with `WNOHANG` and -1 without
    (interrupted by a signal), and -1 when there is none to wait for. -/
def waitpid (s : System) (x : Nat) (noHang : Bool) (exits : List Nat) : System × Int :=
  let s' := s.waiting x exits
  let waitedFor := s'.children (s.pidOf (s.handle x))
  match waitedFor.find? (· ∈ s'.exited) with
  | some n => (s'.log (.reaped n), (s'.childPid n).getD 0)
  | none => (s', if noHang ∧ waitedFor ≠ [] then 0 else -1)

/-- `kill` called by object `x` on its `m_pid`. -/
def kill (s : System) (x : Nat) : System := s.log (.killed x (s.pidOf (s.handle x)))

/-- `pid_c::terminate`. -/
def terminate (s : System) (x : Nat) (t : Timing) : System :=
  let (s, result) := s.waitpid x true t.before
  if result ≤ 0 then
    let s := s.kill x
    if t.kill then
      let (s, _) := s.waitpid x false t.after
      s.setHandle x none
    else s
  else s

/-- `pid_c::wait`. `noHang` says whether `WNOHANG` is among the options. -/
def wait (s : System) (x : Nat) (noHang : Bool) (exits : List Nat) : System :=
  let (s, _) := s.waitpid x noHang exits
  s.setHandle x none

/-- `pid_c::~pid_c` -/
def destroyPid (s : System) (x : Nat) (t : Timing) : System :=
  if s.handle x ≠ none then
    let (s, result) := s.waitpid x true t.before
    if result ≤ 0 then
      let s := s.kill x
      if t.kill then
        let (s, _) := s.waitpid x false t.after
        s.destroy x
      else s.destroy x
    else s.destroy x
  else s.destroy x

/-! ## Streams and descriptors -/

/-- A constructor that gets what it is for from one call. -/
def construct (cls : Class) (r : Resource) (error : String) (ok : Bool) (s : System) : System × Outcome :=
  if ok then (s.acquire cls r, none) else (s, some error)

/-- `file_c::file_c`; `ok` when `fopen` succeeds. -/
def fileC := construct .file .stream error_FILE_OPEN_ERROR

/-- `pipe_c::pipe_c` -/
def pipeC := construct .pipe .pipe error_PIPE_OPEN_ERROR

/-- `socket_c::socket_c` -/
def socketC := construct .socket .descriptor error_SOCKET_CREATE_ERROR

/-- `pid_c::pid_c` from arguments, with `execute`; `fork` returns the `pid_t` of the child or fails. -/
def pidC (args : List String) (fork : Option Int) (s : System) : System × Outcome :=
  if args = [] then (s, some error_SYSTEM_MISSING_PROGRAM_NAME)
  else
    match fork with
    | none => (s, some error_SYSTEM_CANNOT_CREATE_NEW_PROCESS)
    | some pid => (s.acquire .pid (.child pid), none)

/-- A `close`: the call gets the handle, and the member is reset when the call reports success. -/
def closeWith (call : Call) (notOpened closeError : String) (x : Nat) (result : Int) (s : System) :
    System × Outcome :=
  match s.handle x with
  | none => (s, some notOpened)
  | some h =>
    let s := s.log (.released call x h)
    if call.failed result then (s, some closeError)
    else (s.setHandle x none, none)

/-- `file_c::close` -/
def closeFile := closeWith .fclose error_FILE_NOT_OPENED error_FILE_CLOSE_ERROR

/-- `pipe_c::close` -/
def closePipe := closeWith .pclose error_PIPE_NOT_OPENED error_PIPE_CLOSE_ERROR

/-- `socket_c::close` -/
def closeSocket := closeWith .close error_SOCKET_NOT_OPENED error_SOCKET_CLOSE_ERROR

/-- `read_close`: `stream_c::read`, then `close`. -/
def readClose (close : Nat → Int → System → System × Outcome) (x : Nat) (readOk : Bool) (result : Int) (s : System) :
    System × Outcome :=
  match s.handle x with
  | none => (s, some error_STREAM_NOT_OPENED)
  | some _ => if readOk then close x result s else (s, some error_STREAM_READ_ERROR)

/-- `file_c::~file_c` -/
def destroyFile (s : System) (x : Nat) : System :=
  match s.handle x with
  | some (.of n) => (s.log (.released .fclose x (.of n))).destroy x
  | _ => s.destroy x

/-- `pipe_c::~pipe_c` -/
def destroyPipe (s : System) (x : Nat) : System :=
  match s.handle x with
  | some h => (s.log (.released .pclose x h)).destroy x
  | none => s.destroy x

/-- `socket_c::~socket_c` -/
def destroySocket (s : System) (x : Nat) : System :=
  match s.handle x with
  | some h => (s.log (.released .close x h)).destroy x
  | none => s.destroy x

/-! ## Accepting connections -/

/-- `socket_c::accept`. With no connection pending `socket_c()` is value-initialised: `m_fd` is 0. -/
def accept (x : Nat) (a : Accept) (s : System) : System × Outcome :=
  match s.handle x with
  | none => (s, some error_SOCKET_NOT_OPENED)
  | some _ =>
    match a with
    | .foreignDomain => (s, some error_SOCKET_UNKNOWN_DOMAIN)
    | .again => ({ s with objects := new s.objects ⟨.socket, some .standard⟩ }, none)
    | .failed => (s, some error_SOCKET_ACCEPT_ERROR)
    | .foreignAddress =>
      ({ s with resources := s.resources ++ [.descriptor] }, some error_SOCKET_ADDRESS_UNKNOWN_FORMAT)
    | .connected => (s.acquire .socket .descriptor, none)

/-- `socket_c::accept_nonblock`; `on` and `off` when the calls of `ioctl` succeed. Where the second does not, the
    connection that was accepted is destroyed on the way out. -/
def acceptNonblock (x : Nat) (on : Bool) (a : Accept) (off : Bool) (s : System) : System × Outcome :=
  if on then
    match s.accept x a with
    | (s', none) => if off then (s', none) else (s'.destroySocket s.objects.length, some error_SOCKET_ACCEPT_ERROR)
    | (s', some error) => (s', some error)
  else (s, some error_SOCKET_ACCEPT_ERROR)

end System

/-! ## Operations -/

/-- One operation of a program, with the answers of the system calls. -/
inductive Op where
  | fileC (ok : Bool)
  | pipeC (ok : Bool)
  | socketC (ok : Bool)
  | pidC (args : List String) (fork : Option Int)
  | moveConstruct (x : Nat)
  | moveAssign (x y : Nat)
  | close (x : Nat) (result : Int)
  | readClose (x : Nat) (readOk : Bool) (result : Int)
  | accept (x : Nat) (a : Accept)
  | acceptNonblock (x : Nat) (on : Bool) (a : Accept) (off : Bool)
  | wait (x : Nat) (noHang : Bool) (exits : List Nat)
  | terminate (x : Nat) (t : Timing)
  | destroy (x : Nat) (t : Timing)
deriving DecidableEq, Repr

namespace System

/-- The class of a live object. -/
def cls (s : System) (x : Nat) : Option Class := (get s.objects x).map Slot.kind

/-- `fork` returns a positive `pid_t`, which no child has that is not reaped yet. -/
def forkable (s : System) : Option Int → Bool
  | none => true
  | some pid => decide (0 < pid) && (s.children pid).isEmpty

/-- One operation and what it throws; `none` when there is no such object or the class has no such member. -/
def execOutcome (s : System) : Op → Option (System × Outcome)
  | .fileC ok => some (s.fileC ok)
  | .pipeC ok => some (s.pipeC ok)
  | .socketC ok => some (s.socketC ok)
  | .pidC args fork => if s.forkable fork then some (s.pidC args fork) else none
  | .moveConstruct x => do
    let os ← Ownership.moveConstruct s.objects x
    return ({ s with objects := os }.log (.moved x s.objects.length), none)
  | .moveAssign x y => do
    let os ← Ownership.moveAssign s.objects x y
    return ({ s with objects := os }.log (.moved y x), none)
  | .close x result =>
    match s.cls x with
    | some .file => some (s.closeFile x result)
    | some .pipe => some (s.closePipe x result)
    | some .socket => some (s.closeSocket x result)
    | _ => none
  | .readClose x readOk result =>
    match s.cls x with
    | some .file => some (s.readClose closeFile x readOk result)
    | some .pipe => some (s.readClose closePipe x readOk result)
    | _ => none
  | .accept x a => if s.cls x = some .socket then some (s.accept x a) else none
  | .acceptNonblock x on a off => if s.cls x = some .socket then some (s.acceptNonblock x on a off) else none
  | .wait x noHang exits => if s.cls x = some .pid then some (s.wait x noHang exits, none) else none
  | .terminate x t => if s.cls x = some .pid then some (s.terminate x t, none) else none
  | .destroy x t =>
    match s.cls x with
    | some .file => some (s.destroyFile x, none)
    | some .pipe => some (s.destroyPipe x, none)
    | some .socket => some (s.destroySocket x, none)
    | some .pid => some (s.destroyPid x t, none)
    | none => none

/-- One operation; what it throws is caught. -/
def exec (s : System) (op : Op) : Option System := (s.execOutcome op).map Prod.fst

end System

/-! ## What a step can do -/

/-- The class of the objects that make a call. -/
def Call.cls : Call → Class
  | .fclose => .file
  | .pclose => .pipe
  | .close => .socket

/-- A `close` or `read_close` whose call reports failure. -/
def CloseFails (s : System) : Op → Prop
  | .close x result => s.handle x ≠ none ∧ ∃ call : Call, s.cls x = some call.cls ∧ call.failed result = true
  | .readClose x readOk result =>
    s.handle x ≠ none ∧ readOk = true ∧ ∃ call : Call, s.cls x = some call.cls ∧ call.failed result = true
  | _ => False

/-- An `accept` that finds no pending connection. -/
def FindsNothing (s : System) : Op → Prop
  | .accept x a => s.handle x ≠ none ∧ a = .again
  | .acceptNonblock x on a _ => on = true ∧ s.handle x ≠ none ∧ a = .again
  | _ => False

/-- An `accept` that gets a connection with an address that is no `sockaddr_in`. -/
def FindsForeign (s : System) : Op → Prop
  | .accept x a => s.handle x ≠ none ∧ a = .foreignAddress
  | .acceptNonblock x on a _ => on = true ∧ s.handle x ≠ none ∧ a = .foreignAddress
  | _ => False

/-- A socket that is value-initialised. -/
def System.valueInit (s : System) : System := { s with objects := new s.objects ⟨.socket, some .standard⟩ }

/-- What an operation can come down to. -/
inductive Does (s : System) (op : Op) : System → Prop where
  | threw : Does s op s
  | acquired (cls : Class) (r : Resource) : (cls = .pid ↔ ∃ pid, r = .child pid) →
      (∀ pid, r = .child pid → 0 < pid ∧ s.children pid = []) → Does s op (s.acquire cls r)
  | moveConstruct (x : Nat) (os : Objects Class Handle) : Ownership.moveConstruct s.objects x = some os →
      Does s op ({ s with objects := os }.log (.moved x s.objects.length))
  | moveAssign (x y : Nat) (os : Objects Class Handle) : op = .moveAssign x y →
      Ownership.moveAssign s.objects x y = some os → Does s op ({ s with objects := os }.log (.moved y x))
  | closeFailed (x : Nat) (call : Call) (h : Handle) : s.handle x = some h → s.cls x = some call.cls →
      CloseFails s op → Does s op (s.log (.released call x h))
  | closed (x : Nat) (call : Call) (h : Handle) : s.handle x = some h → s.cls x = some call.cls →
      Does s op ((s.log (.released call x h)).setHandle x none)
  | foundNothing : FindsNothing s op → Does s op s.valueInit
  | droppedNothing : FindsNothing s op →
      Does s op ((s.valueInit.log (.released .close s.objects.length .standard)).destroy s.objects.length)
  | foundForeign : FindsForeign s op → Does s op { s with resources := s.resources ++ [.descriptor] }
  | dropped : Does s op (((s.acquire .socket .descriptor).log
      (.released .close s.objects.length (.of s.resources.length))).destroy s.objects.length)
  | waited (x : Nat) (noHang : Bool) (exits : List Nat) : op = .wait x noHang exits → s.cls x = some .pid →
      Does s op (s.wait x noHang exits)
  | terminated (x : Nat) (t : Timing) : op = .terminate x t → s.cls x = some .pid → Does s op (s.terminate x t)
  | destroyed (x : Nat) (call : Call) (h : Handle) : s.handle x = some h → s.cls x = some call.cls →
      Does s op ((s.log (.released call x h)).destroy x)
  | destroyedEmpty (x : Nat) : (∀ n, s.handle x ≠ some (.of n)) → Does s op (s.destroy x)
  | destroyedPid (x : Nat) (t : Timing) : op = .destroy x t → s.cls x = some .pid → Does s op (s.destroyPid x t)

namespace System

variable {s s' : System} {op : Op} {x : Nat}

theorem handle_new {o : Slot Class Handle} {os : Objects Class Handle} {rs : List Resource} {ex : List Nat}
    {history : List Event} : (⟨new os o, rs, ex, history⟩ : System).handle os.length = o.handle := by
  unfold handle
  rw [get_new, if_pos rfl]
  rfl

theorem waitpid_cases (s : System) (x : Nat) (noHang : Bool) (exits : List Nat) :
    (s.waitpid x noHang exits).1 = s.waiting x exits
      ∨ ∃ n, (s.waitpid x noHang exits).1 = (s.waiting x exits).log (.reaped n) := by
  unfold waitpid
  dsimp only
  split
  · exact .inr ⟨_, rfl⟩
  · exact .inl rfl

@[simp] theorem waitpid_objects (noHang : Bool) (exits : List Nat) : (s.waitpid x noHang exits).1.objects = s.objects := by
  rcases s.waitpid_cases x noHang exits with h | ⟨n, h⟩ <;> rw [h] <;> rfl

@[simp] theorem waitpid_resources (noHang : Bool) (exits : List Nat) :
    (s.waitpid x noHang exits).1.resources = s.resources := by
  rcases s.waitpid_cases x noHang exits with h | ⟨n, h⟩ <;> rw [h] <;> rfl

theorem terminate_eq (s : System) (x : Nat) (t : Timing) : s.terminate x t =
    if (s.waitpid x true t.before).2 ≤ 0 then
      if t.kill then (((s.waitpid x true t.before).1.kill x).waitpid x false t.after).1.setHandle x none
      else (s.waitpid x true t.before).1.kill x
    else (s.waitpid x true t.before).1 := rfl

theorem destroyPid_eq (s : System) (x : Nat) (t : Timing) : s.destroyPid x t =
    if s.handle x ≠ none then
      if (s.waitpid x true t.before).2 ≤ 0 then
        if t.kill then (((s.waitpid x true t.before).1.kill x).waitpid x false t.after).1.destroy x
        else ((s.waitpid x true t.before).1.kill x).destroy x
      else (s.waitpid x true t.before).1.destroy x
    else s.destroy x := rfl

theorem does_construct {cls : Class} {r : Resource} {error : String} {ok : Bool}
    (hpid : cls = .pid ↔ ∃ pid, r = .child pid) (hchild : ∀ pid, r = .child pid → 0 < pid ∧ s.children pid = []) :
    Does s op (s.construct cls r error ok).1 := by
  unfold construct
  split
  · exact .acquired cls r hpid hchild
  · exact .threw

theorem does_closeWith (call : Call) {e₁ e₂ : String} {result : Int} (hcls : s.cls x = some call.cls)
    (hfail : s.handle x ≠ none → call.failed result = true → CloseFails s op) :
    Does s op (s.closeWith call e₁ e₂ x result).1 := by
  unfold closeWith
  split
  · exact .threw
  · rename_i h hx
    split
    · rename_i hf
      exact .closeFailed x call h hx hcls (hfail (by simp [hx]) hf)
    · exact .closed x call h hx hcls

/-- A destructor that releases whatever the object holds. -/
theorem does_destroy (call : Call) (hcls : s.cls x = some call.cls)
    (hsome : ∀ h, s.handle x = some h → s' = (s.log (.released call x h)).destroy x)
    (hnone : s.handle x = none → s' = s.destroy x) : Does s op s' := by
  cases hx : s.handle x with
  | none =>
      rw [hnone hx]
      exact .destroyedEmpty x (by simp [hx])
  | some h =>
      rw [hsome h hx]
      exact .destroyed x call h hx hcls

/-- `file_c` is the one whose destructor looks at what it holds. -/
theorem does_destroyFile (hcls : s.cls x = some .file) : Does s op (s.destroyFile x) := by
  unfold destroyFile
  split
  · rename_i n hx
    exact .destroyed x .fclose (.of n) hx hcls
  · rename_i hx
    exact .destroyedEmpty x hx

theorem does_readClose {close : Nat → Int → System → System × Outcome} {readOk : Bool} {result : Int}
    (hclose : readOk = true → Does s op (close x result s).1) : Does s op (s.readClose close x readOk result).1 := by
  unfold readClose
  split
  · exact .threw
  · split
    · rename_i hread
      exact hclose hread
    · exact .threw

theorem does_accept {a : Accept} (hnothing : s.handle x ≠ none → a = .again → FindsNothing s op)
    (hforeign : s.handle x ≠ none → a = .foreignAddress → FindsForeign s op) : Does s op (s.accept x a).1 := by
  unfold accept
  split
  · exact .threw
  · rename_i h hx
    have hx' : s.handle x ≠ none := by simp [hx]
    cases a with
    | foreignDomain => exact .threw
    | failed => exact .threw
    | again => exact .foundNothing (hnothing hx' rfl)
    | foreignAddress => exact .foundForeign (hforeign hx' rfl)
    | connected => exact .acquired .socket .descriptor (by simp) (by simp)

theorem does_acceptNonblock {on off : Bool} {a : Accept} :
    Does s (.acceptNonblock x on a off) (s.acceptNonblock x on a off).1 := by
  unfold acceptNonblock
  split
  · rename_i hon
    have haccept : Does s (.acceptNonblock x on a off) (s.accept x a).1 :=
      does_accept (fun hx ha => ⟨hon, hx, ha⟩) (fun hx ha => ⟨hon, hx, ha⟩)
    cases off with
    | true =>
        split
        · rename_i s' heq
          rw [heq] at haccept
          exact haccept
        · rename_i s' error heq
          rw [heq] at haccept
          exact haccept
    | false =>
        unfold accept
        cases hx : s.handle x with
        | none => exact .threw
        | some h =>
            cases a with
            | foreignDomain => exact .threw
            | failed => exact .threw
            | foreignAddress => exact .foundForeign ⟨hon, by simp [hx], rfl⟩
            | again =>
                -- the value-initialised socket closes descriptor 0 on the way out
                have hnew : s.valueInit.handle s.objects.length = some .standard := handle_new
                have hd : s.valueInit.destroySocket s.objects.length
                    = (s.valueInit.log (.released .close s.objects.length .standard)).destroy s.objects.length := by
                  unfold destroySocket
                  rw [hnew]
                show Does s _ (s.valueInit.destroySocket s.objects.length)
                rw [hd]
                exact .droppedNothing ⟨hon, by simp [hx], rfl⟩
            | connected =>
                have hnew : (s.acquire .socket .descriptor).handle s.objects.length = some (.of s.resources.length) :=
                  handle_new
                have hd : (s.acquire .socket .descriptor).destroySocket s.objects.length
                    = ((s.acquire .socket .descriptor).log
                      (.released .close s.objects.length (.of s.resources.length))).destroy s.objects.length := by
                  unfold destroySocket
                  rw [hnew]
                show Does s _ ((s.acquire .socket .descriptor).destroySocket s.objects.length)
                rw [hd]
                exact .dropped
  · exact .threw

/-- **What a step can do**, the one place where the operations are looked at one by one. -/
theorem exec_does (he : s.exec op = some s') : Does s op s' := by
  unfold exec at he
  obtain ⟨⟨t, out⟩, ho, rfl⟩ := Option.map_eq_some_iff.mp he
  clear he
  cases op with
  | fileC ok => exact congrArg Prod.fst (Option.some.inj ho) ▸ does_construct (by simp) (by simp)
  | pipeC ok => exact congrArg Prod.fst (Option.some.inj ho) ▸ does_construct (by simp) (by simp)
  | socketC ok => exact congrArg Prod.fst (Option.some.inj ho) ▸ does_construct (by simp) (by simp)
  | pidC args fork =>
      obtain ⟨hfork, ho⟩ := Option.ite_none_right_eq_some.mp ho
      rw [← congrArg Prod.fst (Option.some.inj ho)]
      unfold pidC
      split
      · exact .threw
      · cases fork with
        | none => exact .threw
        | some pid =>
            refine .acquired .pid (.child pid) (by simp) (fun pid' hp => ?_)
            obtain rfl := Resource.child.inj hp
            simpa [forkable] using hfork
  | moveConstruct x =>
      obtain ⟨os, hos, ho⟩ := Option.bind_eq_some_iff.mp ho
      rw [← congrArg Prod.fst (Option.some.inj ho)]
      exact .moveConstruct x os hos
  | moveAssign x y =>
      obtain ⟨os, hos, ho⟩ := Option.bind_eq_some_iff.mp ho
      rw [← congrArg Prod.fst (Option.some.inj ho)]
      exact .moveAssign x y os rfl hos
  | close x result =>
      simp only [execOutcome] at ho
      split at ho
      case h_1 hcls =>
        rw [← congrArg Prod.fst (Option.some.inj ho)]
        exact does_closeWith .fclose hcls (fun hx hf => ⟨hx, .fclose, hcls, hf⟩)
      case h_2 hcls =>
        rw [← congrArg Prod.fst (Option.some.inj ho)]
        exact does_closeWith .pclose hcls (fun hx hf => ⟨hx, .pclose, hcls, hf⟩)
      case h_3 hcls =>
        rw [← congrArg Prod.fst (Option.some.inj ho)]
        exact does_closeWith .close hcls (fun hx hf => ⟨hx, .close, hcls, hf⟩)
      case h_4 => simp at ho
  | readClose x readOk result =>
      simp only [execOutcome] at ho
      split at ho
      case h_1 hcls =>
        rw [← congrArg Prod.fst (Option.some.inj ho)]
        exact does_readClose (fun hr =>
          does_closeWith .fclose hcls (fun hx hf => ⟨hx, hr, .fclose, hcls, hf⟩))
      case h_2 hcls =>
        rw [← congrArg Prod.fst (Option.some.inj ho)]
        exact does_readClose (fun hr =>
          does_closeWith .pclose hcls (fun hx hf => ⟨hx, hr, .pclose, hcls, hf⟩))
      case h_3 => simp at ho
  | accept x a =>
      obtain ⟨-, ho⟩ := Option.ite_none_right_eq_some.mp ho
      rw [← congrArg Prod.fst (Option.some.inj ho)]
      exact does_accept (fun hx ha => ⟨hx, ha⟩) (fun hx ha => ⟨hx, ha⟩)
  | acceptNonblock x on a off =>
      obtain ⟨-, ho⟩ := Option.ite_none_right_eq_some.mp ho
      rw [← congrArg Prod.fst (Option.some.inj ho)]
      exact does_acceptNonblock
  | wait x noHang exits =>
      obtain ⟨hcls, ho⟩ := Option.ite_none_right_eq_some.mp ho
      rw [← congrArg Prod.fst (Option.some.inj ho)]
      exact .waited x noHang exits rfl hcls
  | terminate x t =>
      obtain ⟨hcls, ho⟩ := Option.ite_none_right_eq_some.mp ho
      rw [← congrArg Prod.fst (Option.some.inj ho)]
      exact .terminated x t rfl hcls
  | destroy x t =>
      simp only [execOutcome] at ho
      split at ho
      case h_1 hcls =>
        rw [← congrArg Prod.fst (Option.some.inj ho)]
        exact does_destroyFile hcls
      case h_2 hcls =>
        rw [← congrArg Prod.fst (Option.some.inj ho)]
        exact does_destroy .pclose hcls (fun h hx => by rw [destroyPipe, hx]) (fun hx => by rw [destroyPipe, hx])
      case h_3 hcls =>
        rw [← congrArg Prod.fst (Option.some.inj ho)]
        exact does_destroy .close hcls (fun h hx => by rw [destroySocket, hx]) (fun hx => by rw [destroySocket, hx])
      case h_4 hcls =>
        rw [← congrArg Prod.fst (Option.some.inj ho)]
        exact .destroyedPid x t rfl hcls
      case h_5 => simp at ho

end System
end Cclsys
end Cclib

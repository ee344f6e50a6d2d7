import Cclib.Lib.Ledger
import Cclib.Lib.Runs
import Cclib.Cclhttp.Connection
import Mathlib.Algebra.GroupWithZero.Nat
import Mathlib.Data.List.Induction

/-!
# `Cclhttp.Resources` — `response_c` and `post_proc_c`

A `response_c` made from a file has a descriptor, which libmicrohttpd closes with the response; a `post_proc_c` with a
file name has a stream and a post processor. Each is made by a constructor that can fail half-way, and a constructor
that throws has no destructor.

libmicrohttpd finds the fields of a form in the data that `process` passes on, and calls `post_callback` with pieces of
them. How it does that is not known here (`PostProcessor`). Where a write fails `post_callback` throws: the exception
goes through libmicrohttpd, which is C, to the caller of `process`, and what libmicrohttpd keeps is not known from there
on.

## Contents
- `Talk`, `PostProcessor`: what libmicrohttpd does.
- `PostProcC`, `Resource`, `response_c`, `post_proc_c`, `post_callback`, `talk`, `process`.
- `Op`, `exec`, `Loses`, `exec_balanced`, `resources_balanced_iff`.
- `AbortsOnNo`, `found`, `stored`, `talk_spec`, `post_proc_files`: what is in the file.
-/

namespace Cclib
namespace Cclhttp
namespace Resources

open Ownership Ledgers Runs

def error_HTTP_RESP_CANNOT_READ_SOURCE_FILE : String := "cannot read http response file"
def error_HTTP_RESP_UNKNOWN_DATA_SOURCE_IDENTIFIER : String := "unknown identifier of http response data source"
def error_HTTP_RESP_CREATE_ERROR : String := "error while creating http response"
def error_POST_PROC_FILE_OPEN_ERROR : String := "post processor cannot open file"
def error_POST_PROC_FILE_POST_PROCESSOR_CREATE_ERROR : String := "error while creating post processor"
def error_POST_PROC_FILE_WRITE_ERROR : String := "error while writing to post processor file"

/-! ## What libmicrohttpd does -/

/-- A piece of a field of a form. -/
structure Piece where
  key : CString
  data : Bytes

/-- A call of `MHD_post_process`: it returns, with what the post processor is then, or it calls back with a piece and
    goes on as it is answered, `MHD_YES` or not. -/
inductive Talk (P : Type) where
  | returns (state : P)
  | calls (piece : Piece) (answered : Bool → Talk P)

/-- The post processors of libmicrohttpd: a new one, and what a call with data does. -/
structure PostProcessor (P : Type) where
  MHD_create_post_processor : P
  MHD_post_process : P → Bytes → Talk P

/-! ## The functions -/

section Functions

variable {P : Type} (mhd : PostProcessor P)

/-- `post_proc_c`, what was written to its file, and whether a write to it has failed. -/
structure PostProcC (P : Type) where
  m_post_proc : Option (Nat × P)
  m_total_size : Nat
  m_upload_size : Nat
  m_file : Option Nat
  file : Bytes
  failed : Bool

/-- `response_c`, with the descriptor that belongs to its response, or `post_proc_c`. -/
inductive Resource (P : Type) where
  | response (m_resp_ptr : Nat) (fd : Option Nat)
  | postProc (p : PostProcC P)

/-- What an object has of libmicrohttpd and of the system. -/
def owns : Resource P → List Nat
  | .response m_resp_ptr fd => fd.toList ++ [m_resp_ptr]
  | .postProc p => p.m_file.toList ++ (p.m_post_proc.map Prod.fst).toList

abbrev Objects (P : Type) := Ledger Unit (Resource P)

/-- A new object. -/
def constructed (l : Objects P) (r : Resource P) : Objects P := l.hold ⟨(), some r⟩

def c_resp_from_string : Int := 0
def c_resp_from_file : Int := 1

/-- The constructor of `response_c`: whether the file opens, whether `fstat` works, and whether there is a response. -/
def response_c (a_type : Int) (opens stats creates : Bool) (l : Objects P) : Objects P × Option String :=
  if a_type = c_resp_from_string then
    if creates then (constructed l.make (.response l.made none), none) else (l, some error_HTTP_RESP_CREATE_ERROR)
  else if a_type = c_resp_from_file then
    if opens then
      let fd := l.made
      let l := l.make
      if stats then
        if creates then (constructed l.make (.response l.made (some fd)), none)
        else (l, some error_HTTP_RESP_CREATE_ERROR)
      else (l.giveBack fd, some error_HTTP_RESP_CANNOT_READ_SOURCE_FILE)
    else (l, some error_HTTP_RESP_CANNOT_READ_SOURCE_FILE)
  else (l, some error_HTTP_RESP_UNKNOWN_DATA_SOURCE_IDENTIFIER)

/-- The constructor of `post_proc_c`: whether the file opens, and whether there is a post processor. -/
def post_proc_c (a_file_name : Bytes) (a_total_size : Nat) (opens creates : Bool) (l : Objects P) :
    Objects P × Option String :=
  if a_file_name ≠ [] then
    if opens then
      let m_file := l.made
      let l := l.make
      if creates then
        let m_post_proc := (l.made, mhd.MHD_create_post_processor)
        (constructed l.make (.postProc ⟨some m_post_proc, a_total_size, 0, some m_file, [], false⟩), none)
      else (l, some error_POST_PROC_FILE_POST_PROCESSOR_CREATE_ERROR)
    else (l, some error_POST_PROC_FILE_OPEN_ERROR)
  else (constructed l (.postProc ⟨none, a_total_size, 0, none, [], false⟩), none)

/-- `post_callback`, where `fwrite` gets `wrote` bytes out: what is in the file then, and whether it returns `MHD_YES`;
    it returns nothing where it throws. -/
def post_callback (piece : Piece) (wrote : Nat) (file : Bytes) : Bytes × Option Bool :=
  if piece.key.bytes = literal "file" ∧ piece.data.length > 0 then
    (file ++ piece.data.take wrote, if piece.data.length ≤ wrote then some true else none)
  else (file, some false)

/-- `MHD_post_process` with it: the file, and what the post processor is if nothing was thrown. `fwrite` tells, for each
    call of `post_callback`, how many bytes it gets out. -/
def talk (fwrite : Nat → Nat) : Nat → Bytes → Talk P → Bytes × Option P
  | _, file, .returns state => (file, some state)
  | n, file, .calls piece answered =>
    match post_callback piece (fwrite n) file with
    | (file, some mhdYes) => talk fwrite (n + 1) file (answered mhdYes)
    | (file, none) => (file, none)

/-- `post_proc_c::process`. Where an exception has gone through it the post processor is `left`. -/
def process (p : PostProcC P) (a_data : Bytes) (fwrite : Nat → Nat) (left : P) : PostProcC P × Option String :=
  match p.m_post_proc with
  | some (i, state) =>
    let p := { p with m_upload_size := (p.m_upload_size + a_data.length) % 2 ^ 64 }
    match talk fwrite 0 p.file (mhd.MHD_post_process state a_data) with
    | (file, some state) => ({ p with m_post_proc := some (i, state), file := file }, none)
    | (file, none) =>
      ({ p with m_post_proc := some (i, left), file := file, failed := true }, some error_POST_PROC_FILE_WRITE_ERROR)
  | none => (p, none)

/-- What is given back unless the pointer is null. -/
def releasedIf : Option Nat → Objects P → Objects P
  | some i, l => l.giveBack i
  | none, l => l

/-- The destructors. -/
def destroyed (l : Objects P) (x : Nat) : Resource P → Objects P
  | .response m_resp_ptr fd => (releasedIf fd (l.drop x)).giveBack m_resp_ptr
  | .postProc p => releasedIf (p.m_post_proc.map Prod.fst) (releasedIf p.m_file (l.drop x))

/-! ## Runs -/

inductive Op (P : Type) where
  | response (a_type : Int) (opens stats creates : Bool)
  | newPostProc (a_file_name : Bytes) (a_total_size : Nat) (opens creates : Bool)
  | process (x : Nat) (a_data : Bytes) (fwrite : Nat → Nat) (left : P)
  | destroy (x : Nat)

/-- What an operation does, whether it throws or not. -/
def exec (l : Objects P) : Op P → Option (Objects P)
  | .response a_type opens stats creates => some (response_c a_type opens stats creates l).1
  | .newPostProc a_file_name a_total_size opens creates => some (post_proc_c mhd a_file_name a_total_size opens creates l).1
  | .process x a_data fwrite left => do
    let o ← get l.objects x
    match o.handle with
    | some (.postProc p) => return l.change x (.postProc (process mhd p a_data fwrite left).1)
    | _ => none
  | .destroy x => do
    let o ← get l.objects x
    let r ← o.handle
    return destroyed l x r

/-- A constructor that throws when it has made something and not given it back. -/
def Loses : Op P → Prop
  | .response a_type opens stats creates => a_type = c_resp_from_file ∧ opens ∧ stats ∧ ¬ creates
  | .newPostProc a_file_name _ opens creates => a_file_name ≠ [] ∧ opens ∧ ¬ creates
  | _ => False

end Functions

variable {P : Type} {mhd : PostProcessor P} {l l' : Objects P} {x : Nat} {p p' : PostProcC P} {op : Op P}

/-! ## Who owns what -/

theorem constructed_accounts {hands : List Nat} {r : Resource P} (ha : Accounts owns l hands)
    (hr : (owns r).Perm hands) : Balanced owns (constructed l r) := by
  refine Accounts.hold (ha.perm ?_)
  change (owns r ++ [] ++ []).Perm hands
  rw [List.append_nil, List.append_nil]
  exact hr

/-- What the constructor of `response_c` has in its hands when it ends. -/
theorem response_accounts (hl : Balanced owns l) (a_type : Int) (opens stats creates : Bool) :
    Accounts owns (response_c a_type opens stats creates l).1
      (if a_type = c_resp_from_file ∧ opens ∧ stats ∧ ¬ creates then [l.made] else []) := by
  unfold response_c
  by_cases hstring : a_type = c_resp_from_string
  · have hfile : ¬ a_type = c_resp_from_file := by
      rw [hstring]
      decide
    simp only [hstring, if_true, false_and, if_false, hstring ▸ hfile]
    split
    · exact constructed_accounts hl.make (List.Perm.refl _)
    · exact hl
  · by_cases hfile : a_type = c_resp_from_file
    · simp only [hfile, if_true, true_and]
      cases opens
      · exact hl
      · cases stats
        · exact hl.make.giveBack
        · cases creates
          · exact hl.make
          · exact constructed_accounts hl.make.make (List.Perm.swap _ _ _)
    · simp only [if_neg hstring, hfile, if_false, false_and]
      exact hl

/-- What the constructor of `post_proc_c` has in its hands when it ends. -/
theorem postProc_accounts (hl : Balanced owns l) (a_file_name : Bytes) (a_total_size : Nat) (opens creates : Bool) :
    Accounts owns (post_proc_c mhd a_file_name a_total_size opens creates l).1
      (if a_file_name ≠ [] ∧ opens ∧ ¬ creates then [l.made] else []) := by
  unfold post_proc_c
  by_cases hname : a_file_name = []
  · simp only [hname, ne_eq, not_true_eq_false, if_false, false_and]
    exact constructed_accounts hl (List.Perm.refl _)
  · simp only [ne_eq, hname, not_false_eq_true, if_true, true_and]
    cases opens
    · exact hl
    · cases creates
      · exact hl.make
      · exact constructed_accounts hl.make.make (List.Perm.swap _ _ _)

/-- A post processor that processes owns what it owned. -/
theorem process_owns (p : PostProcC P) (a_data : Bytes) (fwrite : Nat → Nat) (left : P) :
    owns (.postProc (process mhd p a_data fwrite left).1) = owns (.postProc p) := by
  unfold process
  cases hp : p.m_post_proc with
  | none => rfl
  | some post =>
      simp only
      split
      all_goals simp only [owns, hp, Option.map_some]

theorem releasedIf_accounts {hands : List Nat} {o : Option Nat} (ha : Accounts owns l (o.toList ++ hands)) :
    Accounts owns (releasedIf o l) hands := by
  cases o with
  | none => exact ha
  | some i => exact ha.giveBack

theorem destroyed_balanced (hl : Balanced owns l) {s : Slot Unit (Resource P)} {r : Resource P}
    (hs : get l.objects x = some s) (hr : s.handle = some r) : Balanced owns (destroyed l x r) := by
  have hdrop := Accounts.drop hl hs
  rw [hr] at hdrop
  change Accounts owns _ (owns r ++ [] ++ []) at hdrop
  rw [List.append_nil, List.append_nil] at hdrop
  cases r with
  | response m_resp_ptr fd => exact (releasedIf_accounts hdrop).giveBack
  | postProc p =>
      refine releasedIf_accounts (releasedIf_accounts ?_)
      rw [List.append_nil]
      exact hdrop

/-- **One operation**: it keeps the ledger balanced if it is not a constructor that loses something. -/
theorem exec_balanced (hl : Balanced owns l) (he : exec mhd l op = some l') : Balanced owns l' ↔ ¬ Loses op := by
  cases op with
  | response a_type opens stats creates =>
      obtain rfl := Option.some.inj he
      rw [(response_accounts hl a_type opens stats creates).balanced_iff, ite_eq_right_iff]
      exact ⟨fun h hloses => List.cons_ne_nil _ _ (h hloses), fun h hloses => absurd hloses h⟩
  | newPostProc a_file_name a_total_size opens creates =>
      obtain rfl := Option.some.inj he
      rw [(postProc_accounts hl a_file_name a_total_size opens creates).balanced_iff, ite_eq_right_iff]
      exact ⟨fun h hloses => List.cons_ne_nil _ _ (h hloses), fun h hloses => absurd hloses h⟩
  | process x a_data fwrite left =>
      refine iff_of_true ?_ not_false
      obtain ⟨o, ho, he⟩ := Option.bind_eq_some_iff.mp he
      cases hr : o.handle with
      | none =>
          simp only [hr] at he
          exact absurd he.symm (Option.some_ne_none _)
      | some r =>
          cases r with
          | response m_resp_ptr fd =>
              simp only [hr] at he
              exact absurd he.symm (Option.some_ne_none _)
          | postProc p =>
              simp only [hr] at he
              obtain rfl := Option.some.inj he
              exact Accounts.change hl ho hr (process_owns p a_data fwrite left)
  | destroy x =>
      refine iff_of_true ?_ not_false
      obtain ⟨o, ho, he⟩ := Option.bind_eq_some_iff.mp he
      obtain ⟨r, hr, he⟩ := Option.bind_eq_some_iff.mp he
      obtain rfl := Option.some.inj he
      exact destroyed_balanced hl ho hr

/-- **Nothing is lost or given back twice**, throughout a run, exactly when no constructor throws between making
    something and owning it: a file whose response, or whose post processor, cannot be created stays open. -/
theorem resources_balanced_iff (mhd : PostProcessor P) (ops : List (Op P)) :
    Throughout (exec mhd) (Balanced owns) Ledger.empty ops ↔
      Along (exec mhd) (fun _ op => ¬ Loses op) Ledger.empty ops :=
  throughout_iff_along (fun _ hl => hl) (fun _ _ _ hl hgood he => (exec_balanced hl he).mpr hgood)
    (fun _ _ _ hl he hl' => (exec_balanced hl he).mp hl') balanced_empty

/-! ## What is in the file -/

/-- An answer that is not `MHD_YES` aborts the call; `Over` is what the post processor is then. -/
def EndsOnNo (Over : P → Prop) : Talk P → Prop
  | .returns _ => True
  | .calls _ answered => (∃ state, answered false = .returns state ∧ Over state) ∧ EndsOnNo Over (answered true)

/-- libmicrohttpd's contract: an answer that is not `MHD_YES` aborts the iteration, and nothing is called back behind it,
    neither in that call nor in a later one. -/
structure AbortsOnNo (mhd : PostProcessor P) (Over : P → Prop) : Prop where
  aborts : ∀ state a_data, EndsOnNo Over (mhd.MHD_post_process state a_data)
  silent : ∀ state a_data, Over state → ∃ state', mhd.MHD_post_process state a_data = .returns state' ∧ Over state'

/-- The pieces of a call that is answered `MHD_YES` all the time, and what the post processor is then. -/
def Talk.accepted : Talk P → List Piece × P
  | .returns state => ([], state)
  | .calls piece answered => (piece :: (answered true).accepted.1, (answered true).accepted.2)

/-- The pieces that libmicrohttpd finds in data: those it hands to a callback that always answers `MHD_YES`. -/
def found (mhd : PostProcessor P) : P → List Bytes → List Piece × P
  | state, [] => ([], state)
  | state, a_data :: fed =>
    let (pieces, state) := (mhd.MHD_post_process state a_data).accepted
    let (more, state) := found mhd state fed
    (pieces ++ more, state)

/-- A piece that `post_callback` writes. -/
def isFile (piece : Piece) : Bool := piece.key.bytes = literal "file" ∧ piece.data.length > 0

/-- The data of the pieces in front of the first one that is not written. -/
def stored (pieces : List Piece) : Bytes := (pieces.takeWhile isFile).flatMap Piece.data

/-- The data that is passed on in the calls of `process` for object `x`. -/
def fedTo (x : Nat) (ops : List (Op P)) : List Bytes :=
  ops.flatMap (fun op => match op with
    | .process y a_data _ _ => if y = x then [a_data] else []
    | _ => [])

variable {Over : P → Prop}

theorem found_append (state : P) (fed : List Bytes) (a_data : Bytes) : found mhd state (fed ++ [a_data]) =
    ((found mhd state fed).1 ++ (mhd.MHD_post_process (found mhd state fed).2 a_data).accepted.1,
      (mhd.MHD_post_process (found mhd state fed).2 a_data).accepted.2) := by
  induction fed generalizing state with
  | nil => simp only [List.nil_append, found, List.append_nil]
  | cons d fed ih => simp only [List.cons_append, found, ih, List.append_assoc]

theorem stored_cons (piece : Piece) (pieces : List Piece) :
    stored (piece :: pieces) = if isFile piece then piece.data ++ stored pieces else [] := by
  rw [stored, List.takeWhile_cons]
  split
  · rw [List.flatMap_cons, stored]
  · rfl

theorem stored_append (pieces pieces' : List Piece) :
    stored (pieces ++ pieces') = stored pieces ++ if pieces.all isFile then stored pieces' else [] := by
  induction pieces with
  | nil => rfl
  | cons piece pieces ih =>
      rw [List.cons_append, stored_cons, stored_cons, ih, List.all_cons]
      cases isFile piece with
      | true => simp only [if_true, Bool.true_and, List.append_assoc]
      | false => simp only [Bool.false_eq_true, if_false, Bool.false_and, List.append_nil]

/-- **A call that does not throw** has written the pieces up to the first that is not of the file, and the post
    processor has come through all of them or has ended. -/
theorem talk_spec {t : Talk P} (ht : EndsOnNo Over t) {fwrite : Nat → Nat} {n : Nat} {file file' : Bytes} {state : P}
    (h : talk fwrite n file t = (file', some state)) : file' = file ++ stored t.accepted.1 ∧
      if t.accepted.1.all isFile then state = t.accepted.2 else Over state := by
  induction t generalizing n file with
  | returns state =>
      obtain ⟨rfl, hstate⟩ := Prod.mk.inj h
      exact ⟨(List.append_nil _).symm, (Option.some.inj hstate).symm⟩
  | calls piece answered ih =>
      obtain ⟨⟨ended, hended, hstate⟩, hyes⟩ := ht
      rw [talk] at h
      unfold post_callback at h
      by_cases hpiece : isFile piece
      · rw [if_pos (of_decide_eq_true hpiece)] at h
        by_cases hwrote : piece.data.length ≤ fwrite n
        · rw [if_pos hwrote, List.take_of_length_le hwrote] at h
          obtain ⟨rfl, hafter⟩ := ih true hyes h
          simp only [Talk.accepted, List.all_cons, hpiece, Bool.true_and]
          exact ⟨by rw [stored_cons, if_pos hpiece, List.append_assoc], hafter⟩
        · rw [if_neg hwrote] at h
          cases h
      · rw [if_neg (fun h => hpiece (decide_eq_true h))] at h
        simp only [hended, talk] at h
        obtain ⟨rfl, hstate'⟩ := Prod.mk.inj h
        obtain rfl := Option.some.inj hstate'
        simp only [Talk.accepted, List.all_cons, Bool.eq_false_iff.mpr hpiece, Bool.false_and, Bool.false_eq_true,
          if_false]
        exact ⟨by rw [stored_cons, if_neg hpiece, List.append_nil], hstate⟩

/-- What a `post_proc_c` is after it has been fed. -/
structure Filed (mhd : PostProcessor P) (Over : P → Prop) (p : PostProcC P) (fed : List Bytes) : Prop where
  upload : p.m_upload_size = if p.m_post_proc.isSome then (fed.map List.length).sum % 2 ^ 64 else 0
  file : ∀ i state, p.m_post_proc = some (i, state) → p.failed = false →
    p.file = stored (found mhd mhd.MHD_create_post_processor fed).1 ∧
      if (found mhd mhd.MHD_create_post_processor fed).1.all isFile
      then state = (found mhd mhd.MHD_create_post_processor fed).2 else Over state

/-- One more call that does not throw: the pieces it finds come behind those of the calls before. -/
theorem Filed.talk {fed : List Bytes} (hp : Filed mhd Over p fed) (hno : AbortsOnNo mhd Over) {i n : Nat}
    {state state' : P} {a_data file : Bytes} {fwrite : Nat → Nat} (hpost : p.m_post_proc = some (i, state))
    (hfailed : p.failed = false)
    (htalk : Resources.talk fwrite n p.file (mhd.MHD_post_process state a_data) = (file, some state')) :
    file = stored (found mhd mhd.MHD_create_post_processor (fed ++ [a_data])).1 ∧
      if (found mhd mhd.MHD_create_post_processor (fed ++ [a_data])).1.all isFile
      then state' = (found mhd mhd.MHD_create_post_processor (fed ++ [a_data])).2 else Over state' := by
  obtain ⟨hfile, hstate⟩ := hp.file i state hpost hfailed
  rw [found_append]
  cases hall : (found mhd mhd.MHD_create_post_processor fed).1.all isFile with
  | true =>
      rw [hall, if_pos rfl] at hstate
      obtain ⟨hnew, hafter⟩ := talk_spec (hno.aborts state a_data) htalk
      rw [← hstate]
      refine ⟨?_, ?_⟩
      · rw [stored_append, hall, if_pos rfl, ← hfile]
        exact hnew
      · rw [List.all_append, hall, Bool.true_and]
        exact hafter
  | false =>
      -- it has been told `MHD_NO`, and calls nothing back
      rw [hall, if_neg Bool.false_ne_true] at hstate
      obtain ⟨ended, hended, hstill⟩ := hno.silent state a_data hstate
      rw [hended] at htalk
      obtain ⟨hsame, hstate'⟩ := Prod.mk.inj htalk
      obtain rfl := Option.some.inj hstate'
      refine ⟨?_, ?_⟩
      · rw [stored_append, hall, if_neg Bool.false_ne_true, List.append_nil, ← hfile]
        exact hsame.symm
      · rw [List.all_append, hall, Bool.false_and, if_neg Bool.false_ne_true]
        exact hstill

/-- One more call of `process`. -/
theorem Filed.process {fed : List Bytes} (hp : Filed mhd Over p fed) (hno : AbortsOnNo mhd Over) (a_data : Bytes)
    (fwrite : Nat → Nat) (left : P) :
    Filed mhd Over (Resources.process mhd p a_data fwrite left).1 (fed ++ [a_data]) := by
  have hupload := hp.upload
  unfold Resources.process
  cases hpost : p.m_post_proc with
  | none =>
      refine ⟨?_, fun i state hsome => absurd (hpost.symm.trans hsome) (Option.some_ne_none _).symm⟩
      rw [hpost] at hupload
      rw [hpost]
      exact hupload
  | some post =>
      obtain ⟨i, state⟩ := post
      rw [hpost] at hupload
      have hsum : (p.m_upload_size + a_data.length) % 2 ^ 64 = ((fed ++ [a_data]).map List.length).sum % 2 ^ 64 := by
        simp only [hupload, Option.isSome_some, if_true, List.map_append, List.map_cons, List.map_nil, List.sum_append,
          List.sum_cons, List.sum_nil, Nat.add_zero, Nat.mod_add_mod]
      simp only
      split
      · rename_i file state' htalk
        refine ⟨hsum, ?_⟩
        rintro i' state'' hsome hfailed
        obtain ⟨-, rfl⟩ := Prod.mk.inj (Option.some.inj hsome)
        exact hp.talk hno hpost hfailed htalk
      · exact ⟨hsum, fun _ _ _ hfailed => absurd hfailed.symm Bool.false_ne_true⟩

/-- What an operation does to the objects. -/
inductive Does (mhd : PostProcessor P) (l : Objects P) : Op P → Ownership.Objects Unit (Resource P) → Prop
  | nothing {op : Op P} (hfed : ∀ x, fedTo x [op] = []) : Does mhd l op l.objects
  | constructs {op : Op P} (r : Resource P) (hr : ∀ p Over, r = .postProc p → Filed mhd Over p [])
      (hfed : ∀ x, fedTo x [op] = []) : Does mhd l op (new l.objects ⟨(), some r⟩)
  | processes (y : Nat) (a_data : Bytes) (fwrite : Nat → Nat) (left : P) (p : PostProcC P)
      (hy : get l.objects y = some ⟨(), some (.postProc p)⟩) : Does mhd l (.process y a_data fwrite left)
        (setHandle l.objects y (some (.postProc (Resources.process mhd p a_data fwrite left).1)))
  | destroys (y : Nat) : Does mhd l (.destroy y) (destroy l.objects y)

theorem releasedIf_objects (o : Option Nat) (l : Objects P) : (releasedIf o l).objects = l.objects := by
  cases o <;> rfl

theorem response_does (l : Objects P) (a_type : Int) (opens stats creates : Bool) :
    Does mhd l (.response a_type opens stats creates) (response_c a_type opens stats creates l).1.objects := by
  unfold response_c
  split
  · split
    · exact .constructs _ (fun _ _ h => by cases h) (fun _ => rfl)
    · exact .nothing (fun _ => rfl)
  · split
    · split
      · split
        · split
          · exact .constructs _ (fun _ _ h => by cases h) (fun _ => rfl)
          · exact .nothing (fun _ => rfl)
        · exact .nothing (fun _ => rfl)
      · exact .nothing (fun _ => rfl)
    · exact .nothing (fun _ => rfl)

theorem newPostProc_does (l : Objects P) (a_file_name : Bytes) (a_total_size : Nat) (opens creates : Bool) :
    Does mhd l (.newPostProc a_file_name a_total_size opens creates)
      (post_proc_c mhd a_file_name a_total_size opens creates l).1.objects := by
  unfold post_proc_c
  split
  · split
    · split
      · refine .constructs _ ?_ (fun _ => rfl)
        rintro p Over ⟨⟩
        refine ⟨rfl, ?_⟩
        rintro i state hsome -
        obtain ⟨-, rfl⟩ := Prod.mk.inj (Option.some.inj hsome)
        exact ⟨rfl, rfl⟩
      · exact .nothing (fun _ => rfl)
    · exact .nothing (fun _ => rfl)
  · refine .constructs _ ?_ (fun _ => rfl)
    rintro p Over ⟨⟩
    exact ⟨rfl, fun _ _ hsome => absurd hsome.symm (Option.some_ne_none _)⟩

theorem exec_does (he : exec mhd l op = some l') : Does mhd l op l'.objects := by
  cases op with
  | response a_type opens stats creates =>
      obtain rfl := Option.some.inj he
      exact response_does l a_type opens stats creates
  | newPostProc a_file_name a_total_size opens creates =>
      obtain rfl := Option.some.inj he
      exact newPostProc_does l a_file_name a_total_size opens creates
  | process y a_data fwrite left =>
      obtain ⟨⟨⟨⟩, r⟩, ho, he⟩ := Option.bind_eq_some_iff.mp he
      cases r with
      | none => exact absurd he.symm (Option.some_ne_none _)
      | some r =>
          cases r with
          | response m_resp_ptr fd => exact absurd he.symm (Option.some_ne_none _)
          | postProc p =>
              obtain rfl := Option.some.inj he
              exact .processes y a_data fwrite left p ho
  | destroy y =>
      obtain ⟨o, ho, he⟩ := Option.bind_eq_some_iff.mp he
      obtain ⟨r, hr, he⟩ := Option.bind_eq_some_iff.mp he
      obtain rfl := Option.some.inj he
      have hobjects : (destroyed l y r).objects = destroy l.objects y := by
        cases r with
        | response m_resp_ptr fd => exact releasedIf_objects fd _
        | postProc p => exact (releasedIf_objects _ _).trans (releasedIf_objects _ _)
      rw [hobjects]
      exact .destroys y

theorem fedTo_process (x y : Nat) (a_data : Bytes) (fwrite : Nat → Nat) (left : P) :
    fedTo x [.process y a_data fwrite left] = if y = x then [a_data] else [] := List.append_nil _

theorem fedTo_append (x : Nat) (ops : List (Op P)) (op : Op P) :
    fedTo x (ops ++ [op]) = fedTo x ops ++ fedTo x [op] := by
  unfold fedTo
  rw [List.flatMap_append]

/-- Objects are numbered as they are made, and only an object that is there is fed. -/
theorem exec_length (he : exec mhd l op = some l') : l.objects.length ≤ l'.objects.length ∧
    ∀ x, l.objects.length ≤ x → fedTo x [op] = [] := by
  have hdoes := exec_does he
  revert hdoes
  generalize l'.objects = os
  intro hdoes
  cases hdoes with
  | nothing hfed => exact ⟨Nat.le_refl _, fun x _ => hfed x⟩
  | constructs r hr hfed => exact ⟨by simp [new], fun x _ => hfed x⟩
  | processes y a_data fwrite left p hy =>
      refine ⟨by simp [setHandle], ?_⟩
      intro x hx
      rw [fedTo_process, if_neg]
      have hlt := lt_of_get hy
      omega
  | destroys y => exact ⟨by simp [destroy], fun _ _ => rfl⟩

/-- What an operation does to a `post_proc_c`: what it has been fed tells what it is. -/
theorem exec_filed (hno : AbortsOnNo mhd Over) (he : exec mhd l op = some l') {fed : Nat → List Bytes}
    (hnew : ∀ x, l.objects.length ≤ x → fed x = [])
    (hfiled : ∀ x p, get l.objects x = some ⟨(), some (.postProc p)⟩ → Filed mhd Over p (fed x)) (x : Nat)
    (p : PostProcC P) (hx : get l'.objects x = some ⟨(), some (.postProc p)⟩) :
    Filed mhd Over p (fed x ++ fedTo x [op]) := by
  have hdoes := exec_does he
  revert hdoes hx
  generalize l'.objects = os
  intro hx hdoes
  cases hdoes with
  | nothing hfed =>
      rw [hfed, List.append_nil]
      exact hfiled x p hx
  | constructs r hr hfed =>
      rw [hfed, List.append_nil]
      rw [get_new] at hx
      split at hx
      · rename_i hlen
        rw [hnew x (Nat.le_of_eq hlen.symm)]
        cases hx
        exact hr p Over rfl
      · exact hfiled x p hx
  | processes y a_data fwrite left p₀ hy =>
      rw [fedTo_process]
      rw [get_setHandle] at hx
      split at hx
      · rename_i hxy
        subst hxy
        rw [hy] at hx
        cases hx
        rw [if_pos rfl]
        exact (hfiled x p₀ hy).process hno a_data fwrite left
      · rename_i hxy
        rw [if_neg (fun h => hxy h.symm), List.append_nil]
        exact hfiled x p hx
  | destroys y =>
      rw [get_destroy] at hx
      split at hx
      · exact absurd hx.symm (Option.some_ne_none _)
      · exact (List.append_nil (fed x)).symm ▸ hfiled x p hx

theorem fed_run (hno : AbortsOnNo mhd Over) (ops : List (Op P)) :
    ∀ l : Objects P, run (exec mhd) Ledger.empty ops = some l →
      (∀ x, l.objects.length ≤ x → fedTo x ops = []) ∧
        ∀ x p, get l.objects x = some ⟨(), some (.postProc p)⟩ → Filed mhd Over p (fedTo x ops) := by
  induction ops using List.reverseRecOn with
  | nil =>
      intro l h
      obtain rfl := Option.some.inj h
      exact ⟨fun _ _ => rfl, fun _ _ hx => absurd hx.symm (Option.some_ne_none _)⟩
  | append_singleton ops op ih =>
      intro l' h
      rw [run_snoc] at h
      obtain ⟨l, hrun, he⟩ := Option.bind_eq_some_iff.mp h
      obtain ⟨hnew, hfiled⟩ := ih l hrun
      obtain ⟨hle, hop⟩ := exec_length he
      constructor
      · intro x hx
        rw [fedTo_append, hnew x (Nat.le_trans hle hx), hop x (Nat.le_trans hle hx)]
        rfl
      · intro x p hx
        rw [fedTo_append]
        exact exec_filed hno he hnew hfiled x p hx

/-- **What is in the file of a `post_proc_c`**, in every run and as long as no write to it has failed, are the pieces of
    the field `file` that libmicrohttpd finds in front of the first other or empty one, and none behind it, where it
    keeps its contract; `m_upload_size` counts all that was passed on. -/
theorem post_proc_files (hno : AbortsOnNo mhd Over) (ops : List (Op P)) (l : Objects P)
    (h : run (exec mhd) Ledger.empty ops = some l) (x : Nat) (p : PostProcC P)
    (hx : get l.objects x = some ⟨(), some (.postProc p)⟩) (hpost : p.m_post_proc.isSome) :
    (p.failed = false → p.file =
      ((found mhd mhd.MHD_create_post_processor (fedTo x ops)).1.takeWhile isFile).flatMap Piece.data) ∧
    p.m_upload_size = ((fedTo x ops).map List.length).sum % 2 ^ 64 := by
  have hp := (fed_run hno ops l h).2 x p hx
  have hupload := hp.upload
  rw [if_pos hpost] at hupload
  obtain ⟨⟨i, state⟩, hsome⟩ := Option.isSome_iff_exists.mp hpost
  exact ⟨fun hfailed => (hp.file i state hsome hfailed).1, hupload⟩

/-! A form whose fields are encoded as in an URL, without escapes, and come as a whole. -/

/-- The fields of `key=value&key=value&`. -/
def fieldsOf (a_data : Bytes) : List Piece :=
  ((a_data.splitOn 38).filter (fun field => field ≠ [])).map (fun field =>
    { key := ⟨(field.takeWhile (fun c => c ≠ 61)).filter (fun c => c ≠ 0), by simp⟩
      data := (field.dropWhile (fun c => c ≠ 61)).drop 1 })

/-- One call for each field; the post processor remembers whether it was told `MHD_NO`. -/
def handOut : List Piece → Talk Bool
  | [] => .returns false
  | piece :: pieces => .calls piece (fun mhdYes => if mhdYes then handOut pieces else .returns true)

def urlencoded : PostProcessor Bool :=
  { MHD_create_post_processor := false
    MHD_post_process := fun ended a_data => if ended then .returns true else handOut (fieldsOf a_data) }

theorem urlencoded_aborts : AbortsOnNo urlencoded (fun ended => ended = true) where
  aborts ended a_data := by
    cases ended with
    | true => trivial
    | false =>
        change EndsOnNo _ (handOut (fieldsOf a_data))
        induction fieldsOf a_data with
        | nil => trivial
        | cons piece pieces ih => exact ⟨⟨true, rfl, rfl⟩, ih⟩
  silent ended a_data hended := by
    subst hended
    exact ⟨true, rfl, rfl⟩

/-- Two calls for one file, with another field in between. -/
def twoCalls : List (Op Bool) :=
  [.newPostProc (literal "f") 9 true true, .process 0 (literal "file=a&file=b&name=n&") (fun _ => 1) false,
    .process 0 (literal "file=c&") (fun _ => 1) false]

/-- Only what stands in front of the other field is in the file. -/
theorem two_calls_file : ∃ l p, run (exec urlencoded) Ledger.empty twoCalls = some l ∧
    get l.objects 0 = some ⟨(), some (.postProc p)⟩ ∧ p.file = literal "ab" ∧ p.m_upload_size = 28 := by
  have hrun : run (exec urlencoded) Ledger.empty twoCalls = some
      ⟨[some ⟨(), some (.postProc ⟨some (1, true), 9, 28, some 0, literal "ab", false⟩)⟩], 2, []⟩ := rfl
  obtain ⟨hfile, hupload⟩ := post_proc_files urlencoded_aborts twoCalls _ hrun 0 _ rfl rfl
  exact ⟨_, _, hrun, rfl, (hfile rfl).trans rfl, hupload.trans rfl⟩

end Resources
end Cclhttp
end Cclib

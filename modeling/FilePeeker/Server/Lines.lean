import FilePeeker.Home.MachineId
import FilePeeker.Lib.Code
import FilePeeker.Lib.Steps
import FilePeeker.Lib.Utf8
import FilePeeker.Server.Api
import Mathlib.Algebra.Group.Nat.Defs
import Mathlib.Data.List.TakeWhile

/-!
# The lines of an API connection

A connection is to answer every line, in order, whatever its bytes: a line that is no
request is answered with an error.  The lines are cut out of what each read gives, however
the reads cut what was sent, and `Inv` says what has come of them: those answered, the one
that is being answered, and the rest, which is in the buffer or on its way.

Every answer is the line's own (`Answers`), but a line that is not UTF-8 gets none: it is
an error of reading, and that ends the connection (`answers_every_line_iff`).  A line that is
a text and no request is answered and nothing more comes of it.
-/

namespace FilePeeker

open Utf8

/-! ### Cutting lines -/

def lineFeed : UInt8 := 0x0A
def carriageReturn : UInt8 := 0x0D

/-- The first line of what was read, and what is behind it. -/
def cutLine (buffer : Bytes) : Option (Bytes × Bytes) :=
  match buffer.dropWhile (· ≠ lineFeed) with
  | [] => none
  | _ :: rest => some (buffer.takeWhile (· ≠ lineFeed), rest)

/-- A line without the `\r` that may stand before its end. -/
def chomp (line : Bytes) : Bytes :=
  if line.getLast? = some carriageReturn then line.dropLast else line

/-- What a client writes for a line. -/
def terminate (line : Bytes) : Bytes := line ++ [lineFeed]

/-! ### A connection -/

/-- A connection whose client leaves it open and reads what it writes. -/
structure LineReader where
  /-- What is on its way, as the reads will give it. -/
  incoming : List Bytes
  /-- What was read, and is not part of a line that was taken. -/
  buffer : Bytes
  connection : Connection
  written : List Response

inductive LineAction
  | read
  | nextLine
  /-- With the status and the id of the task there are by then. -/
  | respond (status : Except String String) (task : TaskId)
  | write

def LineReader.init (incoming : List Bytes) : LineReader := ⟨incoming, [], .select, []⟩

/-- One step of `connection` that is not asked to shut down, where `parse` is what
`serde_json` makes of a text. -/
def lineStep (parse : Bytes → Line) (s : LineReader) : LineAction → Option LineReader
  | .read =>
    match s.connection, cutLine s.buffer, s.incoming with
    | .select, none, chunk :: incoming =>
      some { s with buffer := s.buffer ++ chunk, incoming := incoming }
    | _, _, _ => none
  | .nextLine =>
    match s.connection, cutLine s.buffer with
    | .select, some (line, rest) =>
      match fromUtf8 (terminate line) with
      | .ok () => some { s with buffer := rest, connection := .respond (parse (chomp line)) }
      -- `InvalidData`, as any other error of reading.
      | .error _ => some { s with buffer := rest, connection := .done }
    | _, _ => none
  | .respond status task =>
    match s.connection with
    | .respond line =>
      let (response, stop, _) := FilePeeker.respond line status task
      some { s with connection := .write response stop }
    | _ => none
  | .write =>
    match s.connection with
    | .write response stop =>
      let s := { s with written := s.written ++ [response] }
      some { s with connection := if stop then .done else .select }
    | _ => none

/-! ### What a line is to be answered with -/

/-- The request that a line is. -/
def requestOf (parse : Bytes → Line) (line : Bytes) : Option Request :=
  if Valid line then (parse (chomp line)).toOption else none

/-- A request that is answered with a result, where the server has a status. -/
def Request.isServable (request : Request) : Bool :=
  request.method = methodStatus || request.method = methodStop ||
    (request.method = methodTaskDemo && request.params.isOk)

def Request.isStop (request : Request) : Bool := request.method = methodStop

/-- The response has the request's id, or none where there is none, and is an error where
the line is not a request to be served. -/
structure Answers (parse : Bytes → Line) (line : Bytes) (response : Response) : Prop where
  id : response.id = (requestOf parse line).bind Request.id
  error : (∀ request, requestOf parse line = some request → ¬ request.isServable) →
    response.error.isSome

variable {parse : Bytes → Line} {lines left : List Bytes} {line buffer rest : Bytes}
  {incoming : List Bytes} {s t : LineReader} {action : LineAction} {status : Except String String}
  {task : TaskId}

theorem requestOf_of_valid (hvalid : Valid line) :
    requestOf parse line = (parse (chomp line)).toOption := if_pos hvalid

/-- What `respond` makes of a line's text is the line's answer. -/
theorem respond_answers (hvalid : Valid line) :
    Answers parse line (respond (parse (chomp line)) status task).1 := by
  have hrequest : requestOf parse line = (parse (chomp line)).toOption :=
    requestOf_of_valid hvalid
  unfold respond
  cases hparse : parse (chomp line) with
  | error message =>
    rw [hparse] at hrequest
    exact ⟨by rw [hrequest]; rfl, fun _ => rfl⟩
  | ok request =>
    rw [hparse] at hrequest
    have hid : (requestOf parse line).bind Request.id = request.id := by rw [hrequest]; rfl
    by_cases hstatus : request.method = methodStatus
    · have hserved : request.isServable := by simp [Request.isServable, hstatus]
      simp only [if_pos hstatus]
      cases status with
      | ok text => exact ⟨hid.symm, fun h => absurd hserved (h request hrequest)⟩
      | error message => exact ⟨hid.symm, fun _ => rfl⟩
    · by_cases hdemo : request.method = methodTaskDemo
      · simp only [if_neg hstatus, if_pos hdemo]
        cases hparams : request.params with
        | error message => exact ⟨hid.symm, fun _ => rfl⟩
        | ok params =>
          have hserved : request.isServable := by
            simp [Request.isServable, hdemo, hparams, Except.isOk, Except.toBool]
          exact ⟨hid.symm, fun h => absurd hserved (h request hrequest)⟩
      · by_cases hstop : request.method = methodStop
        · have hserved : request.isServable := by simp [Request.isServable, hstop]
          simp only [if_neg hstatus, if_neg hdemo, if_pos hstop]
          exact ⟨hid.symm, fun h => absurd hserved (h request hrequest)⟩
        · simp only [if_neg hstatus, if_neg hdemo, if_neg hstop]
          exact ⟨hid.symm, fun _ => rfl⟩

/-- Only a stop stops. -/
theorem isStop_of_respond {text : Line} (h : (respond text status task).2.1 = true) :
    ∃ request, text = .ok request ∧ request.isStop := by
  unfold respond at h
  cases text with
  | error message => cases h
  | ok request =>
    refine ⟨request, rfl, ?_⟩
    by_cases hstop : request.method = methodStop
    · exact decide_eq_true hstop
    · by_cases hstatus : request.method = methodStatus
      · simp only [if_pos hstatus] at h
        cases status <;> cases h
      · simp only [if_neg hstatus, if_neg hstop] at h
        split at h <;> cases h

/-! ### What the buffer holds -/

theorem cutLine_eq_none (h : cutLine buffer = none) : lineFeed ∉ buffer := by
  unfold cutLine at h
  split at h
  · next hdrop =>
    intro hmem
    have := List.dropWhile_eq_nil_iff.mp hdrop lineFeed hmem
    simp at this
  · cases h

theorem cutLine_eq_some (h : cutLine buffer = some (line, rest)) :
    lineFeed ∉ line ∧ buffer = terminate line ++ rest := by
  unfold cutLine at h
  split at h
  · cases h
  · next c _ hdrop =>
    obtain ⟨rfl, rfl⟩ := Prod.mk.inj (Option.some.inj h)
    have hc : c = lineFeed := by
      have := List.head?_dropWhile_not (· ≠ lineFeed) buffer
      rw [hdrop] at this
      simpa using this
    have hwhole := List.takeWhile_append_dropWhile (p := (· ≠ lineFeed)) (l := buffer)
    rw [hdrop, hc] at hwhole
    refine ⟨fun hmem => by simpa using List.mem_takeWhile_imp hmem, ?_⟩
    rw [terminate, List.append_assoc, List.singleton_append, hwhole]

theorem terminate_selfDelimiting : SelfDelimiting (fun line : Bytes => lineFeed ∉ line) terminate :=
  .terminated (fun _ _ _ _ => id) fun _ => id

theorem terminate_ne_nil (line : Bytes) : terminate line ≠ [] :=
  List.append_ne_nil_of_right_ne_nil _ (List.cons_ne_nil _ _)

theorem valid_terminate : Valid (terminate line) ↔ Valid line :=
  ⟨fun h => (h.around_ascii (by decide) rfl).1, fun h => h.append (.singleton (by decide))⟩

/-- The line that was cut out is the next that was sent. -/
theorem sent_of_cutLine {later : Bytes} (hfree : ∀ line ∈ left, lineFeed ∉ line)
    (hsent : buffer ++ later = left.flatMap terminate) (hcut : cutLine buffer = some (line, rest)) :
    ∃ left', left = line :: left' ∧ rest ++ later = left'.flatMap terminate := by
  obtain ⟨hline, rfl⟩ := cutLine_eq_some hcut
  rw [List.append_assoc] at hsent
  cases left with
  | nil => exact absurd (List.append_eq_nil_iff.mp hsent).1 (terminate_ne_nil line)
  | cons next left' =>
    rw [List.flatMap_cons] at hsent
    obtain ⟨rfl, hrest⟩ :=
      terminate_selfDelimiting line next _ _ hline (hfree next List.mem_cons_self) hsent
    exact ⟨left', rfl, hrest⟩

/-! ### What comes of the lines -/

/-- The bytes of which no line was cut yet. -/
def LineReader.pending (s : LineReader) : Bytes := s.buffer ++ s.incoming.flatten

/-- What is done to the first of the lines that are left, and that the rest of them is
what is pending. -/
def Doing (parse : Bytes → Line) (s : LineReader) (left : List Bytes) : Prop :=
  match s.connection with
  | .select => s.pending = left.flatMap terminate
  | .respond text => ∃ line later, left = line :: later ∧ Valid line ∧
      text = parse (chomp line) ∧ s.pending = later.flatMap terminate
  | .write response stop => ∃ line later, left = line :: later ∧ Valid line ∧
      Answers parse line response ∧ (stop = true → later = []) ∧
      s.pending = later.flatMap terminate
  | .done => left = [] ∨ ∃ line later, left = line :: later ∧ ¬ Valid line

/-- Some of the lines are answered, all of them texts, and the rest is left. -/
def Inv (parse : Bytes → Line) (lines : List Bytes) (s : LineReader) : Prop :=
  ∃ answered left, lines = answered ++ left ∧ (∀ line ∈ answered, Valid line) ∧
    List.Forall₂ (Answers parse) answered s.written ∧ Doing parse s left

/-- No line asks for a stop but the last. -/
def StopsLast (parse : Bytes → Line) (lines : List Bytes) : Prop :=
  ∀ line ∈ lines.dropLast, ∀ request, requestOf parse line = some request → ¬ request.isStop

theorem later_eq_nil {answered later : List Bytes} {request : Request}
    (hstop : StopsLast parse (answered ++ line :: later))
    (hrequest : requestOf parse line = some request) (h : request.isStop) : later = [] := by
  cases later with
  | nil => rfl
  | cons next later =>
    refine absurd h (hstop line ?_ request hrequest)
    rw [List.dropLast_append_of_ne_nil (List.cons_ne_nil _ _), List.dropLast_cons_cons]
    exact List.mem_append_right _ List.mem_cons_self

theorem inv_init (hincoming : incoming.flatten = lines.flatMap terminate) :
    Inv parse lines (.init incoming) :=
  ⟨[], lines, rfl, fun _ h => absurd h List.not_mem_nil, .nil, hincoming⟩

/-! ### One step -/

/-- What one step does. -/
inductive LineStepped (parse : Bytes → Line) (s : LineReader) : LineReader → Prop
  | reads {chunk : Bytes} {incoming : List Bytes} (hconnection : s.connection = .select)
      (hcut : cutLine s.buffer = none) (hincoming : s.incoming = chunk :: incoming) :
      LineStepped parse s { s with buffer := s.buffer ++ chunk, incoming := incoming }
  | takes {line rest : Bytes} (hconnection : s.connection = .select)
      (hcut : cutLine s.buffer = some (line, rest)) (hline : Valid line) :
      LineStepped parse s { s with buffer := rest, connection := .respond (parse (chomp line)) }
  | breaks {line rest : Bytes} (hconnection : s.connection = .select)
      (hcut : cutLine s.buffer = some (line, rest)) (hline : ¬ Valid line) :
      LineStepped parse s { s with buffer := rest, connection := .done }
  | responds {text : Line} (status : Except String String) (task : TaskId)
      (hconnection : s.connection = .respond text) :
      LineStepped parse s { s with
        connection := .write (respond text status task).1 (respond text status task).2.1 }
  | writes {response : Response} {stop : Bool} (hconnection : s.connection = .write response stop) :
      LineStepped parse s { s with
        written := s.written ++ [response]
        connection := if stop then .done else .select }

theorem lineStep_cases (h : lineStep parse s action = some t) : LineStepped parse s t := by
  cases action with
  | read =>
    simp only [lineStep] at h
    split at h
    · next chunk incoming hconnection hcut hincoming =>
      cases h
      exact .reads hconnection hcut hincoming
    · cases h
  | nextLine =>
    simp only [lineStep] at h
    split at h
    · next line rest hconnection hcut =>
      split at h
      · next hutf8 =>
        cases h
        exact .takes hconnection hcut (valid_terminate.mp (fromUtf8_iff.mp hutf8))
      · next error hutf8 =>
        cases h
        refine .breaks hconnection hcut fun hline => ?_
        rw [fromUtf8_iff.mpr (valid_terminate.mpr hline)] at hutf8
        cases hutf8
    · cases h
  | respond status task =>
    simp only [lineStep] at h
    split at h
    · next text hconnection =>
      cases h
      exact .responds status task hconnection
    · cases h
  | write =>
    simp only [lineStep] at h
    split at h
    · next response stop hconnection =>
      cases h
      exact .writes hconnection
    · cases h

/-- **What one step preserves.** -/
theorem inv_step (hfree : ∀ line ∈ lines, lineFeed ∉ line) (hstop : StopsLast parse lines)
    (hinv : Inv parse lines s) (h : LineStepped parse s t) : Inv parse lines t := by
  obtain ⟨answered, left, rfl, hvalid, hwritten, hdoing⟩ := hinv
  have hsent {line rest : Bytes} (hpending : s.pending = left.flatMap terminate)
      (hcut : cutLine s.buffer = some (line, rest)) :
      ∃ later, left = line :: later ∧ rest ++ s.incoming.flatten = later.flatMap terminate :=
    sent_of_cutLine (fun line hline => hfree line (List.mem_append_right _ hline)) hpending hcut
  unfold Doing at hdoing
  cases h with
  | @reads chunk incoming hconnection _ hincoming =>
    rw [hconnection] at hdoing
    refine ⟨answered, left, rfl, hvalid, hwritten, ?_⟩
    rw [Doing, hconnection]
    calc (s.buffer ++ chunk) ++ incoming.flatten
        = s.buffer ++ s.incoming.flatten := by
          rw [hincoming, List.flatten_cons, List.append_assoc]
      _ = left.flatMap terminate := hdoing
  | @takes line rest hconnection hcut hline =>
    rw [hconnection] at hdoing
    obtain ⟨later, rfl, hrest⟩ := hsent hdoing hcut
    exact ⟨answered, _, rfl, hvalid, hwritten, line, later, rfl, hline, rfl, hrest⟩
  | @breaks line rest hconnection hcut hline =>
    rw [hconnection] at hdoing
    obtain ⟨later, rfl, -⟩ := hsent hdoing hcut
    exact ⟨answered, _, rfl, hvalid, hwritten, .inr ⟨line, later, rfl, hline⟩⟩
  | responds status task hconnection =>
    rw [hconnection] at hdoing
    obtain ⟨line, later, rfl, hline, rfl, hpending⟩ := hdoing
    refine ⟨answered, _, rfl, hvalid, hwritten, line, later, rfl, hline,
      respond_answers hline, fun hstops => ?_, hpending⟩
    obtain ⟨request, hparse, hrequest⟩ := isStop_of_respond hstops
    refine later_eq_nil hstop ?_ hrequest
    rw [requestOf_of_valid hline, hparse]
    rfl
  | @writes response stop hconnection =>
    rw [hconnection] at hdoing
    obtain ⟨line, later, rfl, hline, hanswers, hlater, hpending⟩ := hdoing
    refine ⟨answered ++ [line], later, by simp, ?_, ?_, ?_⟩
    · intro line' hline'
      rcases List.mem_append.mp hline' with hmem | hmem
      · exact hvalid line' hmem
      · rwa [List.mem_singleton.mp hmem]
    · exact List.rel_append hwritten (.cons hanswers .nil)
    · cases stop with
      | true => exact .inl (hlater rfl)
      | false => exact hpending

/-! ### Coming to rest -/

/-- Nothing can happen to the connection before its client sends more. -/
def LineReader.AtRest (parse : Bytes → Line) (s : LineReader) : Prop :=
  ∀ action, lineStep parse s action = none

/-- A connection at rest has no line left but behind one that is no text. -/
theorem left_of_atRest (hdoing : Doing parse s left) (hrest : s.AtRest parse) :
    left = [] ∨ ∃ line later, left = line :: later ∧ ¬ Valid line := by
  unfold Doing at hdoing
  cases hconnection : s.connection with
  | select =>
    rw [hconnection] at hdoing
    have hread := hrest .read
    have hnext := hrest .nextLine
    simp only [lineStep, hconnection] at hread hnext
    cases hcut : cutLine s.buffer with
    | some cut =>
      rw [hcut] at hnext
      dsimp only at hnext
      split at hnext <;> cases hnext
    | none =>
      cases hincoming : s.incoming with
      | cons chunk incoming =>
        rw [hcut, hincoming] at hread
        cases hread
      | nil =>
        dsimp only at hdoing
        rw [LineReader.pending, hincoming, List.flatten_nil, List.append_nil] at hdoing
        have hnone := cutLine_eq_none hcut
        cases left with
        | nil => exact .inl rfl
        | cons line later =>
          refine absurd ?_ hnone
          rw [hdoing, List.flatMap_cons, terminate]
          simp
  | respond text =>
    have h := hrest (.respond (.ok "") ⟨0⟩)
    simp only [lineStep, hconnection] at h
    cases h
  | write response stop =>
    have h := hrest .write
    simp only [lineStep, hconnection] at h
    cases h
  | done =>
    rw [hconnection] at hdoing
    exact hdoing

/-- What is still to be done about a line that was taken. -/
def Connection.due : Connection → Nat
  | .select => 0
  | .respond _ => 2
  | .write _ _ => 1
  | .done => 0

theorem count_of_cutLine (h : cutLine buffer = some (line, rest)) :
    buffer.count lineFeed = rest.count lineFeed + 1 := by
  obtain ⟨hline, rfl⟩ := cutLine_eq_some h
  rw [terminate, List.count_append, List.count_append, List.count_eq_zero.mpr hline,
    List.count_singleton_self]
  omega

/-- However the reads cut what was sent, the connection comes to the end of it. -/
theorem rests (parse : Bytes → Line) (s : LineReader) :
    Rests (lineStep parse) (fun _ _ => True) s := by
  refine Rests.of_measure (I := fun _ => True)
    (fun s => 3 * s.pending.count lineFeed + s.connection.due) (fun s => s.incoming.length)
    (fun _ _ _ _ _ _ => trivial) (fun s action t _ _ h => ?_) trivial
  cases lineStep_cases h with
  | reads hconnection _ hincoming =>
    refine .inr ⟨?_, ?_⟩
    · simp only [LineReader.pending, hincoming, List.flatten_cons, List.append_assoc, le_refl]
    · simp only [hincoming, List.length_cons, Nat.lt_succ_self]
  | takes hconnection hcut | breaks hconnection hcut =>
    have hcount := count_of_cutLine hcut
    refine .inl ?_
    simp only [LineReader.pending, List.count_append, hcount, hconnection, Connection.due]
    omega
  | responds status task hconnection =>
    refine .inl ?_
    simp only [LineReader.pending, hconnection, Connection.due]
    omega
  | @writes response stop hconnection =>
    refine .inl ?_
    cases stop
    all_goals
      simp only [LineReader.pending, hconnection, Connection.due]
      simp

/-! ### Every line -/

theorem inv_of_steps (hfree : ∀ line ∈ lines, lineFeed ∉ line) (hstop : StopsLast parse lines)
    (hincoming : incoming.flatten = lines.flatMap terminate)
    (h : Steps (lineStep parse) (fun _ _ => True) (.init incoming) s) : Inv parse lines s :=
  h.invariant (fun _ _ _ hinv _ hstep => inv_step hfree hstop hinv (lineStep_cases hstep))
    (inv_init hincoming)

/-- Each line that was sent has its answer, in order, once nothing more can happen, and
up to then the first of them have. -/
def AnswersEveryLine (parse : Bytes → Line) (lines : List Bytes) : Prop :=
  ∀ incoming s, incoming.flatten = lines.flatMap terminate →
    Steps (lineStep parse) (fun _ _ => True) (.init incoming) s →
    (∃ answered left, lines = answered ++ left ∧
      List.Forall₂ (Answers parse) answered s.written) ∧
    (s.AtRest parse → List.Forall₂ (Answers parse) lines s.written)

/-- All that was sent may come in one read; the connection then goes on to its rest, and has
answered no line behind one that is no text. -/
theorem valid_of_answersEveryLine (hfree : ∀ line ∈ lines, lineFeed ∉ line)
    (hstop : StopsLast parse lines) (h : AnswersEveryLine parse lines) :
    ∀ line ∈ lines, Valid line := by
  have hincoming : [lines.flatMap terminate].flatten = lines.flatMap terminate :=
    List.flatten_singleton
  obtain ⟨s, hsteps, hrest⟩ := (rests parse (.init [lines.flatMap terminate])).exists_rest
  have hall := (h _ s hincoming hsteps).2 fun action => hrest action trivial
  obtain ⟨answered, left, rfl, hvalid, hwritten, -⟩ := inv_of_steps hfree hstop hincoming hsteps
  have hlength := hall.length_eq.trans hwritten.length_eq.symm
  rw [List.length_append, Nat.add_eq_left, List.length_eq_zero_iff] at hlength
  subst hlength
  rwa [List.append_nil]

theorem answersEveryLine_of_valid (hfree : ∀ line ∈ lines, lineFeed ∉ line)
    (hstop : StopsLast parse lines) (hvalid : ∀ line ∈ lines, Valid line) :
    AnswersEveryLine parse lines := by
  intro incoming s hincoming hsteps
  obtain ⟨answered, left, rfl, -, hwritten, hdoing⟩ := inv_of_steps hfree hstop hincoming hsteps
  refine ⟨⟨answered, left, rfl, hwritten⟩, fun hrest => ?_⟩
  rcases left_of_atRest hdoing hrest with rfl | ⟨line, later, rfl, hline⟩
  · rwa [List.append_nil]
  · exact absurd (hvalid line (List.mem_append_right _ List.mem_cons_self)) hline

/-- **Every line is answered where every line is a text**, and only there.  A connection
comes to rest in any case. -/
theorem answers_every_line_iff (parse : Bytes → Line) (lines : List Bytes)
    (hfree : ∀ line ∈ lines, lineFeed ∉ line) (hstop : StopsLast parse lines) :
    (∀ s, Rests (lineStep parse) (fun _ _ => True) s) ∧
      (AnswersEveryLine parse lines ↔ ∀ line ∈ lines, Valid line) :=
  ⟨rests parse, valid_of_answersEveryLine hfree hstop, answersEveryLine_of_valid hfree hstop⟩

/-! ### A byte that no text has -/

def statusLine : Bytes := ascii "\x7b\"id\":1,\"method\":\"server.status\"\x7d"

/-- What `serde_json` makes of that line, of one that is no JSON, and of the `params` that
are not there. -/
def parseStatus (text : Bytes) : Line :=
  if text = statusLine then .ok ⟨some 1, methodStatus, .ok ⟨5, false⟩⟩
  else .error "expected value at line 1 column 1"

theorem lineFeed_notMem_statusLine : lineFeed ∉ statusLine := by decide

theorem requestOf_statusLine :
    requestOf parseStatus statusLine = some ⟨some 1, methodStatus, .ok ⟨5, false⟩⟩ := by
  rw [requestOf, if_pos (by decide +kernel), show chomp statusLine = statusLine by decide +kernel,
    parseStatus, if_pos rfl]
  rfl

theorem requestOf_ne_statusLine {line : Bytes} (h : chomp line ≠ statusLine) :
    requestOf parseStatus line = none := by
  rw [requestOf, parseStatus, if_neg h]
  split <;> rfl

/-- A line that is no request, between two that are. -/
def threeLines : List Bytes := [statusLine, ascii "status?", statusLine]

theorem three_lines_are_answered : AnswersEveryLine parseStatus threeLines := by
  have hfree : ∀ line ∈ threeLines, lineFeed ∉ line :=
    List.forall_mem_cons.mpr ⟨lineFeed_notMem_statusLine, List.forall_mem_cons.mpr
      ⟨by decide, List.forall_mem_singleton.mpr lineFeed_notMem_statusLine⟩⟩
  have hstop : StopsLast parseStatus threeLines := by
    intro line hline request hrequest
    have hline : line = statusLine ∨ line = ascii "status?" := by
      simpa [threeLines] using hline
    rcases hline with rfl | rfl
    · rw [requestOf_statusLine] at hrequest
      cases hrequest
      decide
    · rw [requestOf_ne_statusLine (by decide +kernel)] at hrequest
      cases hrequest
  refine (answers_every_line_iff parseStatus threeLines hfree hstop).2.mpr ?_
  exact List.forall_mem_cons.mpr ⟨by decide +kernel, List.forall_mem_cons.mpr
    ⟨by decide +kernel, List.forall_mem_singleton.mpr (by decide +kernel)⟩⟩

/-- A line of one byte that is no text leaves the line behind it without an answer, too. -/
theorem line_is_not_answered : ¬ AnswersEveryLine parseStatus [[0xFF], statusLine] := by
  intro h
  have hfree : ∀ line ∈ [[0xFF], statusLine], lineFeed ∉ line :=
    List.forall_mem_cons.mpr ⟨by decide, List.forall_mem_singleton.mpr lineFeed_notMem_statusLine⟩
  have hstop : StopsLast parseStatus [[0xFF], statusLine] := by
    intro line hline request hrequest
    rw [List.mem_singleton.mp hline, requestOf_ne_statusLine (by decide +kernel)] at hrequest
    cases hrequest
  have hvalid := valid_of_answersEveryLine hfree hstop h [0xFF] List.mem_cons_self
  revert hvalid
  decide +kernel

end FilePeeker

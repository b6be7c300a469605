import FilePeeker.Client.Ssh
import FilePeeker.Lib.Dialogue

/-!
# Starting a server over SSH

`ensure_server_executable` and `start_server` of the old client, and the loop of
`run_source_installer`: a client talks to the login shell of a remote host through one pipe
each way.  It has the shell run a script, which reports where the server's executable is or
that there is none; then it has the shell run that executable, which reports its port and
token.  Whatever else comes on the pipe, a login banner or what `cargo` prints, are lines
before a report.

The client has a server exactly if both reports came (`starts_iff`): of each the first, among
lines that are text.  Nothing that came behind the second is lost, and what was printed before
the first was handed on.
-/

namespace FilePeeker.Connections

open Utf8 Shell

namespace Startup

def serverReadyPrefix : Bytes := ascii "FILE_PEEKER_SERVER_READY="
def serverErrorPrefix : Bytes := ascii "FILE_PEEKER_SERVER_ERROR="
def serverStartupPrefix : Bytes := ascii "FILE_PEEKER_SERVER_STARTUP="

/-- `shell_quote`. -/
def shellQuote (value : Bytes) : Bytes :=
  singleQuote ::
    (value.flatMap fun c => if c = singleQuote then Client.quotedQuote else [c]) ++ [singleQuote]

structure ConnectionInfo where
  serverPort : UInt16
  token : Bytes
deriving DecidableEq

/-- Why there is no server. -/
inductive StartError
  | notText
  /-- The installer's report did not come; `what` is the installer. -/
  | noResult (what : String)
  | installer (message : Bytes)
  | executableRequired
  | noStartup
  | startupJson (error : String)
  | emptyToken
deriving DecidableEq

inductive StartErrorKind
  | invalidData
  | unexpectedEof
  | invalidInput
  | other
deriving DecidableEq, Repr

def StartError.kind : StartError → StartErrorKind
  | notText | startupJson _ | emptyToken => .invalidData
  | noResult _ | noStartup => .unexpectedEof
  | executableRequired => .invalidInput
  | installer _ => .other

def StartError.message : StartError → Bytes
  | notText => ascii "stream did not contain valid UTF-8"
  | noResult what => ascii (what ++ " closed stdout before reporting a result")
  | installer message => message
  | executableRequired => ascii "server executable is required"
  | noStartup => ascii "server closed stdout before reporting startup"
  | startupJson error => ascii ("server reported invalid startup JSON: " ++ error)
  | emptyToken => ascii "server reported an empty token"

/-- How far the client is.  `output` is what it has handed on. -/
inductive Place
  | ensure
  | awaitResult (output : Bytes)
  | startServer (executable output : Bytes)
  | awaitStartup (executable output : Bytes)
  | ended (result : Except StartError (Bytes × ConnectionInfo)) (output : Bytes)

/-- The result, and what was handed on. -/
abbrev Result := Except StartError (Bytes × ConnectionInfo) × Bytes

/-- `trim_end_matches(['\r', '\n'])`. -/
def trimEnd (line : Bytes) : Bytes := line.rdropWhile fun c => c = 0x0D ∨ c = 0x0A

/-- The text of a line that is a report. -/
def report (pre line : Bytes) : Option Bytes := (trimEnd line).dropPrefix? pre

/-- What `read_line` makes of what it read. -/
def readLine (line : Bytes) (output : Bytes) (next : Place) : Place :=
  match fromUtf8 line with
  | .ok () => next
  | .error _ => .ended (.error .notText) output

/-- One round of the loop of `ensure_server_executable`. -/
def onResultLine (output line : Bytes) : Place :=
  readLine line output <|
    match report serverReadyPrefix line with
    | some executable => .startServer executable output
    | none =>
      match report serverErrorPrefix line with
      | some message => .ended (.error (.installer message)) output
      | none => .awaitResult (output ++ line)

/-- One round of the loop of `read_server_startup`, where `parse` is what `serde_json` makes of
the report. -/
def onStartupLine (parse : Bytes → Except String (UInt16 × Bytes)) (executable output line : Bytes) :
    Place :=
  readLine line output <|
    match report serverStartupPrefix line with
    | some json =>
      match parse json with
      | .error error => .ended (.error (.startupJson error)) output
      | .ok (port, token) =>
        if token = [] then .ended (.error .emptyToken) output
        else .ended (.ok (executable, ⟨port, token⟩)) output
    | none => .awaitStartup executable output

def launchCommand (executable : Bytes) : Bytes :=
  ascii "exec " ++ shellQuote executable ++ ascii " serve\n"

/-- `start` of `ssh.rs`, where `ensureCommand` is what has the remote shell look for the
executable and `what` it runs. -/
def start (ensureCommand : Bytes) (what : String)
    (parse : Bytes → Except String (UInt16 × Bytes)) : Place → Command Place Result
  | .ensure => .write ensureCommand (.awaitResult [])
  | .awaitResult output =>
    .read .line (onResultLine output) fun line =>
      readLine line output (.ended (.error (.noResult what)) output)
  | .startServer executable output =>
    if executable = [] then .done (.error .executableRequired, output)
    else .write (launchCommand executable) (.awaitStartup executable output)
  | .awaitStartup executable output =>
    .read .line (onStartupLine parse executable output) fun line =>
      readLine line output (.ended (.error .noStartup) output)
  | .ended result output => .done (result, output)

variable {ensureCommand : Bytes} {what : String}
  {parse : Bytes → Except String (UInt16 × Bytes)} {closes : Bool}
  {input w rest line output executable : Bytes} {r : Result} {n : Nat} {p next : Place}
  {info : ConnectionInfo}

open Dialogue

/-! ### Lines and reports -/

theorem readLine_of_valid (h : Valid line) : readLine line output next = next := by
  rw [readLine, fromUtf8_iff.mpr h]

theorem readLine_of_not_valid (h : ¬ Valid line) :
    readLine line output next = .ended (.error .notText) output := by
  unfold readLine
  split
  · exact absurd (fromUtf8_iff.mp ‹_›) h
  · rfl

theorem report_eq_some {pre text : Bytes} :
    report pre line = some text ↔ trimEnd line = pre ++ text := by
  rw [report, List.dropPrefix?_eq_some_iff]
  constructor
  · rintro ⟨pre', heq, hpre⟩
    rw [heq, eq_of_beq hpre]
  · intro h
    exact ⟨pre, h, beq_self_eq_true _⟩

/-- The line says nothing of an executable. -/
def isNoise (line : Bytes) : Bool :=
  fromUtf8 line = .ok () ∧ report serverReadyPrefix line = none ∧
    report serverErrorPrefix line = none

/-- The line says nothing of a server. -/
def isNotice (line : Bytes) : Bool :=
  fromUtf8 line = .ok () ∧ report serverStartupPrefix line = none

theorem isNoise_iff : isNoise line = true ↔ Valid line ∧ report serverReadyPrefix line = none ∧
    report serverErrorPrefix line = none := by
  rw [isNoise, decide_eq_true_iff, fromUtf8_iff]

theorem isNotice_iff : isNotice line = true ↔ Valid line ∧
    report serverStartupPrefix line = none := by
  rw [isNotice, decide_eq_true_iff, fromUtf8_iff]

/-! ### The two loops -/

theorem result_loop : IsLoop (start ensureCommand what parse) .awaitResult onResultLine
    (fun output line => readLine line output (.ended (.error (.noResult what)) output))
    isNoise where
  reads _ := rfl
  goesOn output line h := by
    obtain ⟨hvalid, hready, herror⟩ := isNoise_iff.mp h
    rw [onResultLine, readLine_of_valid hvalid, hready, herror]

/-- The second loop hands nothing on. -/
theorem startup_loop (executable output : Bytes) :
    IsLoop (start ensureCommand what parse) (fun _ => .awaitStartup executable output)
      (fun _ => onStartupLine parse executable output)
      (fun _ line => readLine line output (.ended (.error .noStartup) output)) isNotice where
  reads _ := rfl
  goesOn _ line h := by
    obtain ⟨hvalid, hnone⟩ := isNotice_iff.mp h
    rw [onStartupLine, readLine_of_valid hvalid, hnone]

/-! ### How the client ends -/

theorem ended_inv {result : Except StartError (Bytes × ConnectionInfo)}
    (h : Gives (start ensureCommand what parse) closes (.ended result output) input w r rest n) :
    r = (result, output) ∧ w = [] ∧ rest = input := by
  cases h with
  | done hc => cases hc; exact ⟨rfl, rfl, rfl⟩
  | write hc _ => cases hc
  | read hc _ _ => cases hc
  | eof hc _ _ _ => cases hc

/-- What was read was text, where the client ends well. -/
theorem readLine_inv {started : Bytes × ConnectionInfo} {handed : Bytes}
    (h : Gives (start ensureCommand what parse) closes (readLine line output next) input w
      (.ok started, handed) rest n) :
    Valid line ∧
      Gives (start ensureCommand what parse) closes next input w (.ok started, handed) rest n := by
  by_cases hvalid : Valid line
  · rw [readLine_of_valid hvalid] at h
    exact ⟨hvalid, h⟩
  · rw [readLine_of_not_valid hvalid] at h
    cases (ended_inv h).1

/-- The report of a server that is up. -/
def IsStartup (parse : Bytes → Except String (UInt16 × Bytes)) (info : ConnectionInfo)
    (line : Bytes) : Prop :=
  Valid line ∧ info.token ≠ [] ∧ ∃ json, trimEnd line = serverStartupPrefix ++ json ∧
    parse json = .ok (info.serverPort, info.token)

theorem onStartupLine_inv {started : Bytes × ConnectionInfo} {handed : Bytes}
    (hno : isNotice line = false)
    (h : Gives (start ensureCommand what parse) closes
      (onStartupLine parse executable output line) input w (.ok started, handed) rest n) :
    IsStartup parse started.2 line ∧ started.1 = executable ∧ handed = output ∧ w = [] ∧
      rest = input := by
  obtain ⟨hvalid, h⟩ := readLine_inv h
  split at h
  · rename_i json hreport
    split at h
    · cases (ended_inv h).1
    · rename_i port token hparse
      split at h
      · cases (ended_inv h).1
      · rename_i htoken
        obtain ⟨heq, rfl, rfl⟩ := ended_inv h
        cases heq
        exact ⟨⟨hvalid, htoken, json, report_eq_some.mp hreport, hparse⟩, rfl, rfl, rfl, rfl⟩
  · rename_i hnone
    rw [isNotice_iff.mpr ⟨hvalid, hnone⟩] at hno
    cases hno

theorem onStartupLine_of_startup (h : IsStartup parse info line) :
    onStartupLine parse executable output line = .ended (.ok (executable, info)) output := by
  obtain ⟨hvalid, htoken, json, htrim, hparse⟩ := h
  rw [onStartupLine, readLine_of_valid hvalid, report_eq_some.mpr htrim]
  simp only [hparse, if_neg htoken]

/-- What the client reads when it starts the server, to where it is done. -/
structure Serves (parse : Bytes → Except String (UInt16 × Bytes)) (info : ConnectionInfo)
    (input rest : Bytes) (notices : List Bytes) (startup : Bytes) : Prop where
  before : ∀ line ∈ notices, IsLine line ∧ isNotice line = true
  line : IsLine startup
  reports : IsStartup parse info startup
  all : input = notices.flatten ++ startup ++ rest

theorem awaitStartup_inv {started : Bytes × ConnectionInfo} {handed : Bytes}
    (h : Gives (start ensureCommand what parse) closes (.awaitStartup executable output) input w
      (.ok started, handed) rest n) :
    started.1 = executable ∧ handed = output ∧ w = [] ∧
      ∃ notices startup, Serves parse started.2 input rest notices startup := by
  obtain ⟨notices, hnotices, ⟨startup, left, m, hline, hno, rfl, hlast⟩ | ⟨left, m, rfl, hlast⟩⟩ :=
    (startup_loop executable output).cases [] h
  · obtain ⟨hstartup, hexe, hhanded, rfl, rfl⟩ := onStartupLine_inv hno hlast
    exact ⟨hexe, hhanded, rfl, notices, startup, hnotices, hline, hstartup, rfl⟩
  · cases (ended_inv (readLine_inv hlast).2).1

theorem gives_awaitStartup (ensureCommand : Bytes) (what : String) (closes : Bool)
    (executable output : Bytes) {notices : List Bytes} {startup : Bytes}
    (h : Serves parse info input rest notices startup) :
    ∃ m, Gives (start ensureCommand what parse) closes (.awaitStartup executable output) input []
      (.ok (executable, info), output) rest m := by
  obtain ⟨hnotices, hline, hstartup, rfl⟩ := h
  have hlast : Gives (start ensureCommand what parse) closes (.awaitStartup executable output)
      (startup ++ rest) [] (.ok (executable, info), output) rest 1 := by
    refine .read rfl (hline.cut rest) ?_
    rw [onStartupLine_of_startup hstartup]
    exact .done rfl
  rw [List.append_assoc]
  exact (startup_loop executable output).gives [] hnotices hlast

/-- What the client reads until it knows the executable, and then until it has the server. -/
structure Starts (parse : Bytes → Except String (UInt16 × Bytes)) (executable : Bytes)
    (info : ConnectionInfo) (input rest output : Bytes) (banner : List Bytes)
    (ready : Bytes) (notices : List Bytes) (startup : Bytes) : Prop where
  before : ∀ line ∈ banner, IsLine line ∧ isNoise line = true
  line : IsLine ready
  valid : Valid ready
  reports : trimEnd ready = serverReadyPrefix ++ executable
  named : executable ≠ []
  handedOn : output = banner.flatten
  serves : ∃ left, input = banner.flatten ++ ready ++ left ∧
    Serves parse info left rest notices startup

theorem startServer_inv {started : Bytes × ConnectionInfo} {handed : Bytes}
    (h : Gives (start ensureCommand what parse) closes (.startServer executable output) input w
      (.ok started, handed) rest n) :
    executable ≠ [] ∧ started.1 = executable ∧ handed = output ∧ w = launchCommand executable ∧
      ∃ notices startup, Serves parse started.2 input rest notices startup := by
  have hne : executable ≠ [] := by
    rintro rfl
    cases h with
    | done hc => cases hc
    | write hc _ => cases hc
    | read hc _ _ => cases hc
    | eof hc _ _ _ => cases hc
  have hstart : start ensureCommand what parse (.startServer executable output) =
      .write (launchCommand executable) (.awaitStartup executable output) := by
    rw [start, if_neg hne]
  cases h with
  | done hc => rw [hstart] at hc; cases hc
  | write hc hnext =>
    rw [hstart] at hc
    cases hc
    obtain ⟨hexe, hhanded, rfl, hserves⟩ := awaitStartup_inv hnext
    exact ⟨hne, hexe, hhanded, List.append_nil _, hserves⟩
  | read hc _ _ => rw [hstart] at hc; cases hc
  | eof hc _ _ _ => rw [hstart] at hc; cases hc

theorem onResultLine_inv {started : Bytes × ConnectionInfo} {handed : Bytes}
    (hno : isNoise line = false)
    (h : Gives (start ensureCommand what parse) closes (onResultLine output line) input w
      (.ok started, handed) rest n) :
    Valid line ∧ ∃ exe, trimEnd line = serverReadyPrefix ++ exe ∧
      Gives (start ensureCommand what parse) closes (.startServer exe output) input w
        (.ok started, handed) rest n := by
  obtain ⟨hvalid, h⟩ := readLine_inv h
  refine ⟨hvalid, ?_⟩
  split at h
  · rename_i exe hready
    exact ⟨exe, report_eq_some.mp hready, h⟩
  · rename_i hready
    split at h
    · cases (ended_inv h).1
    · rename_i herror
      rw [isNoise_iff.mpr ⟨hvalid, hready, herror⟩] at hno
      cases hno

/-- **The client has a server exactly if both reports came**, however the bytes arrive. -/
theorem starts_iff (ensureCommand : Bytes) (what : String)
    (parse : Bytes → Except String (UInt16 × Bytes)) (closes : Bool)
    (input w rest output executable : Bytes) (info : ConnectionInfo) :
    AlwaysEnds (start ensureCommand what parse) closes .ensure input w
        (.ok (executable, info), output) rest ↔
      w = ensureCommand ++ launchCommand executable ∧
        ∃ banner ready notices startup,
          Starts parse executable info input rest output banner ready notices startup := by
  rw [alwaysEnds_iff]
  constructor
  · rintro ⟨n, h⟩
    cases h with
    | done hc => cases hc
    | read hc _ _ => cases hc
    | eof hc _ _ _ => cases hc
    | write hc hnext =>
      cases hc
      obtain ⟨banner, hbanner, ⟨ready, left, m, hline, hno, rfl, h⟩ | ⟨left, m, rfl, h⟩⟩ :=
        result_loop.cases _ hnext
      · obtain ⟨hvalid, exe, htrim, h⟩ := onResultLine_inv hno h
        obtain ⟨hne, heq, hhanded, rfl, notices, startup, hserves⟩ := startServer_inv h
        cases heq
        exact ⟨rfl, banner, ready, notices, startup,
          { before := hbanner, line := hline, valid := hvalid, reports := htrim, named := hne,
            handedOn := hhanded, serves := ⟨left, rfl, hserves⟩ }⟩
      · cases (ended_inv (readLine_inv h).2).1
  · rintro ⟨rfl, banner, ready, notices, startup, h⟩
    obtain ⟨left, rfl, hserves⟩ := h.serves
    obtain ⟨m, hm⟩ := gives_awaitStartup ensureCommand what closes executable output hserves
    have hlaunch : Gives (start ensureCommand what parse) closes (.startServer executable output)
        left (launchCommand executable ++ []) (.ok (executable, info), output) rest (m + 1) :=
      .write (by rw [start, if_neg h.named]) hm
    have hready : onResultLine output ready = .startServer executable output := by
      rw [onResultLine, readLine_of_valid h.valid, report_eq_some.mpr h.reports]
    rw [← hready, List.append_nil] at hlaunch
    have hresult : Gives (start ensureCommand what parse) closes (.awaitResult output)
        (ready ++ left) (launchCommand executable) (.ok (executable, info), output) rest
        (m + 1 + 1) := .read rfl (h.line.cut left) hlaunch
    rw [show output = [] ++ banner.flatten from h.handedOn] at hresult
    obtain ⟨k, hk⟩ := result_loop.gives _ h.before hresult
    rw [List.append_assoc, h.handedOn]
    exact ⟨_, .write rfl hk⟩

end Startup

end FilePeeker.Connections

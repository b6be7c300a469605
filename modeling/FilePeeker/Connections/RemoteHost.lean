import FilePeeker.Connections.Startup

/-!
# What runs on a remote host

The script `ensure-server.sh`, which the client has a remote shell run, and what comes of its
report.  The path it checked goes to the client as the rest of a line, and back to the shell as
a quoted word of the command that starts the server.

That is the path the script checked exactly if the home directory's is text without a line
feed (`runs_what_was_checked`): of any other the client reads a part, or nothing.
-/

namespace FilePeeker.Connections

open Utf8 Shell Dialogue Startup

/-- What the script finds.  `printed` is what `install_server` prints, and `installs` how it
exits; `present` and `installed` are `[ -x "$server_executable" ]` before and after. -/
structure RemoteHost where
  home : Bytes
  present : Bool
  cargo : Bool
  printed : Bytes
  installs : Bool
  installed : Bool

namespace RemoteHost

/-- `CARGO_PKG_VERSION`. -/
def serverVersion : Bytes := ascii "0.1.0"

/-- What stands in the executable's path behind the home directory's. -/
def underHome : Bytes :=
  ascii "/.file-peeker/servers/" ++ serverVersion ++ ascii "/bin/file-peeker-server"

def serverExecutable (home : Bytes) : Bytes := home ++ underHome

/-- `printf '…%s\n' text`. -/
def printLine (pre text : Bytes) : Bytes := pre ++ text ++ [Frame.lineFeed]

def unable : Bytes := ascii "unable to install file-peeker-server"

/-- The executable is there, or is installed. -/
def isReady (host : RemoteHost) (forceInstall : Bool) : Bool :=
  (!forceInstall && host.present) || (host.cargo && host.installs && host.installed)

/-- What `ensure-server.sh` prints. -/
def ensureServer (host : RemoteHost) (forceInstall : Bool) : Bytes :=
  if !forceInstall && host.present then
    printLine serverReadyPrefix (serverExecutable host.home)
  else if host.cargo then
    host.printed ++
      if host.installs && host.installed then
        printLine serverReadyPrefix (serverExecutable host.home)
      else printLine serverErrorPrefix unable
  else printLine serverErrorPrefix unable

/-- `ensure_server_command`, where `script` is the text of `ensure-server.sh`. -/
def ensureServerCommand (script : Bytes) (forceInstall : Bool) : Bytes :=
  ascii "sh -s -- '" ++ serverVersion ++ ascii "' '" ++
    ascii (if forceInstall then "true" else "false") ++
    ascii "' <<'FILE_PEEKER_ENSURE_SERVER_SCRIPT'\n" ++ script ++
    ascii "FILE_PEEKER_ENSURE_SERVER_SCRIPT\n"

/-- `start` of `ssh.rs`. -/
def startOver (script : Bytes) (forceInstall : Bool)
    (parse : Bytes → Except String (UInt16 × Bytes)) : Place → Command Place Result :=
  start (ensureServerCommand script forceInstall) "server installer" parse

variable {script : Bytes} {parse : Bytes → Except String (UInt16 × Bytes)} {closes : Bool}
  {host : RemoteHost} {forceInstall : Bool} {info : ConnectionInfo}
  {home input w rest served output text : Bytes} {r : Result} {n : Nat}
  {banner printed notices : List Bytes} {startup : Bytes}

/-! ### The line of a report -/

/-- What ends in neither byte that is trimmed stays. -/
theorem trimEnd_append {pre : Bytes} {c : UInt8} (hlast : pre.getLast? = some c)
    (hc : c ≠ 0x0D ∧ c ≠ 0x0A) (text : Bytes) : trimEnd (pre ++ text) = pre ++ trimEnd text := by
  obtain ⟨front, rfl⟩ := List.getLast?_eq_some_iff.mp hlast
  induction text using List.reverseRecOn with
  | nil => simp [trimEnd, hc, List.rdropWhile_concat_neg]
  | append_singleton text x ih =>
    rw [← List.append_assoc]
    by_cases hx : x = 0x0D ∨ x = 0x0A
    · rw [trimEnd, List.rdropWhile_concat_pos _ _ _ (by simpa using hx), trimEnd,
        List.rdropWhile_concat_pos _ _ _ (by simpa using hx)]
      exact ih
    · rw [trimEnd, List.rdropWhile_concat_neg _ _ _ (by simpa using hx), trimEnd,
        List.rdropWhile_concat_neg _ _ _ (by simpa using hx), List.append_assoc]

theorem trimEnd_lineFeed : trimEnd [Frame.lineFeed] = [] := by decide

theorem trimEnd_printLine {pre : Bytes} {c : UInt8} (hlast : (pre ++ text).getLast? = some c)
    (hc : c ≠ 0x0D ∧ c ≠ 0x0A) : trimEnd (printLine pre text) = pre ++ text := by
  rw [printLine, trimEnd_append hlast hc, trimEnd_lineFeed, List.append_nil]

theorem underHome_getLast (pre home : Bytes) :
    (pre ++ serverExecutable home).getLast? = some 0x72 := by
  have hlast : underHome.getLast? = some 0x72 := by decide
  rw [serverExecutable, ← List.append_assoc, List.getLast?_append, hlast]
  rfl

theorem trimEnd_ready (home : Bytes) :
    trimEnd (printLine serverReadyPrefix (serverExecutable home)) =
      serverReadyPrefix ++ serverExecutable home :=
  trimEnd_printLine (underHome_getLast _ _) (by decide)

theorem isLine_printLine {pre : Bytes} (h : (pre ++ text).all (· ≠ Frame.lineFeed) = true) :
    IsLine (printLine pre text) :=
  ⟨_, rfl, fun hmem => by simpa using List.all_eq_true.mp h _ hmem⟩

/-- The path is text exactly if the home directory's is. -/
theorem valid_ready_iff :
    Valid (printLine serverReadyPrefix (serverExecutable home)) ↔ Valid home := by
  have hsplit : printLine serverReadyPrefix (serverExecutable home) =
      (ascii "FILE_PEEKER_SERVER_READY" ++ 0x3D :: home) ++ 0x2F ::
        (ascii ".file-peeker/servers/0.1.0/bin/file-peeker-server" ++ [Frame.lineFeed]) := by
    have hpre : serverReadyPrefix = ascii "FILE_PEEKER_SERVER_READY" ++ [0x3D] := by decide
    have hunder : underHome =
        0x2F :: ascii ".file-peeker/servers/0.1.0/bin/file-peeker-server" := by decide
    rw [printLine, serverExecutable, hpre, hunder]
    simp only [List.append_assoc, List.cons_append, List.nil_append]
  constructor
  · intro h
    have hfront := (h.around_ascii (by decide) hsplit).1
    exact (hfront.around_ascii (by decide) rfl).2
  · intro h
    have hpre : Valid serverReadyPrefix := .ofAscii rfl
    have hunder : Valid underHome := .ofAscii rfl
    exact (hpre.append (h.append hunder)).append (.singleton (by decide))

theorem isLine_ready (h : Frame.lineFeed ∉ home) :
    IsLine (printLine serverReadyPrefix (serverExecutable home)) := by
  refine ⟨_, rfl, ?_⟩
  rw [serverExecutable, List.mem_append, List.mem_append]
  rintro (hmem | hmem | hmem)
  · exact absurd hmem (by decide)
  · exact h hmem
  · exact absurd hmem (by decide)

/-- The first line of the report, where the home directory's path has a line feed. -/
theorem cut_ready (h : Frame.lineFeed ∈ home) : ∃ first behind : Bytes,
    first.length < home.length ∧ IsLine (serverReadyPrefix ++ first ++ [Frame.lineFeed]) ∧
      printLine serverReadyPrefix (serverExecutable home) =
        (serverReadyPrefix ++ first ++ [Frame.lineFeed]) ++ behind := by
  obtain ⟨first, behind, rfl, hnot⟩ := List.eq_append_cons_of_mem h
  refine ⟨first, behind ++ underHome ++ [Frame.lineFeed], by simp, ⟨_, rfl, ?_⟩, ?_⟩
  · rw [List.mem_append]
    rintro (hmem | hmem)
    · exact absurd hmem (by decide)
    · exact hnot hmem
  · simp [printLine, serverExecutable]

theorem length_trimEnd_le (line : Bytes) : (trimEnd line).length ≤ line.length :=
  (List.rdropWhile_prefix _ (l := line)).length_le

/-! ### What the shell is told to run -/

/-- **A quoted path is one word of the command**, and is the path. -/
theorem launchCommand_words (h : 0 ∉ text) :
    ∃ line, launchCommand text = line ++ [newline] ∧
      arguments line = .ok [ascii "exec", text, ascii "serve"] := by
  have hexec : arguments (ascii "exec") = .ok [ascii "exec"] := by decide
  have hquoted : ReadsAs (shellQuote text) (text.map fun c => (c, true)) := by
    intro r hmode
    rw [shellQuote, List.cons_append, Reader.read_cons_of_next (Reader.next_open hmode),
      Reader.read_append_of_read (Client.read_quoted h rfl rfl),
      Reader.read_cons_of_next (Reader.next_close rfl), Reader.read_nil]
    simp [Reader.enter, Reader.extend, hmode]
  have hordinary : (ascii "serve").all isOrdinary = true := by decide
  have hserve : ReadsAs (ascii "serve") ((ascii "serve").map fun c => (c, false)) :=
    readsAs_ordinary (List.cons_ne_nil _ _) (List.all_eq_true.mp hordinary)
  have hwords := arguments_words hexec (List.cons_ne_nil _ _) (.cons hquoted (.cons hserve .nil))
  refine ⟨_, ?_, hwords.trans ?_⟩
  · have hexec' : ascii "exec " = ascii "exec" ++ [space] := by decide
    have hserve' : ascii " serve\n" = space :: ascii "serve" ++ [newline] := by decide
    rw [launchCommand, hexec', hserve', List.intercalate_cons_cons, List.intercalate_singleton]
    simp only [List.append_assoc, List.cons_append, List.nil_append]
  · simp [unquoted, List.map_map, Function.comp_def]

/-! ### What the client makes of the report -/

/-- The lines before the report, and the line of it. -/
theorem ensureServer_eq (forceInstall : Bool) (hprinted : host.printed = printed.flatten) :
    ∃ lines : List Bytes, (lines = printed ∨ lines = []) ∧ host.ensureServer forceInstall =
      lines.flatten ++
        if host.isReady forceInstall then printLine serverReadyPrefix (serverExecutable host.home)
        else printLine serverErrorPrefix unable := by
  unfold ensureServer isReady
  cases (!forceInstall && host.present) with
  | true => exact ⟨[], .inr rfl, rfl⟩
  | false =>
    cases host.cargo with
    | true =>
      refine ⟨printed, .inl rfl, ?_⟩
      simp only [hprinted]
      rfl
    | false => exact ⟨[], .inr rfl, rfl⟩

/-- A line that names another executable than the one that was checked. -/
theorem not_started_by {first handed : Bytes} (hshort : first.length < home.length)
    (h : Gives (startOver script forceInstall parse) closes
      (onResultLine output (serverReadyPrefix ++ first ++ [Frame.lineFeed])) input w
      (.ok (serverExecutable home, info), handed) rest n) : False := by
  have htrim : trimEnd (serverReadyPrefix ++ first ++ [Frame.lineFeed]) =
      serverReadyPrefix ++ trimEnd (first ++ [Frame.lineFeed]) := by
    rw [List.append_assoc]
    exact trimEnd_append (c := 0x3D) (by decide) (by decide) _
  obtain ⟨-, h⟩ := readLine_inv h
  rw [report_eq_some.mpr htrim] at h
  obtain ⟨-, heq, -⟩ := startServer_inv h
  have hlen : (serverExecutable home).length = (trimEnd (first ++ [Frame.lineFeed])).length :=
    congrArg List.length heq
  have hle := length_trimEnd_le (first ++ [Frame.lineFeed])
  have hunder : 1 < underHome.length := by decide
  simp only [List.length_append, List.length_singleton, serverExecutable] at hle hlen
  omega

/-- How the client goes on from the report. -/
theorem ready_inv {handed : Bytes}
    (h : Gives (startOver script forceInstall parse) closes
      (.awaitResult output) (printLine serverReadyPrefix (serverExecutable home) ++ served) w
      (.ok (serverExecutable home, info), handed) rest n) :
    Valid home ∧ Frame.lineFeed ∉ home := by
  by_cases hlf : Frame.lineFeed ∈ home
  · obtain ⟨first, behind, hshort, hline, heq⟩ := cut_ready hlf
    rw [heq, List.append_assoc] at h
    obtain ⟨m, hm⟩ := result_loop.line_inv hline h
    exact absurd hm (not_started_by hshort)
  · obtain ⟨m, hm⟩ := result_loop.line_inv (isLine_ready hlf) h
    exact ⟨valid_ready_iff.mp (readLine_inv hm).1, hlf⟩

/-- What the client does with the report of an executable. -/
theorem ready_ends {lines : List Bytes} (hall : ∀ line ∈ lines, IsLine line ∧ isNoise line = true)
    (hserves : Serves parse info served rest notices startup) (hvalid : Valid home)
    (hlf : Frame.lineFeed ∉ home) :
    ∃ w output, AlwaysEnds (startOver script forceInstall parse) closes .ensure
      (lines.flatten ++ (printLine serverReadyPrefix (serverExecutable home) ++ served)) w
      (.ok (serverExecutable home, info), output) rest := by
  have hstarts : Starts parse (serverExecutable home) info
      (lines.flatten ++ (printLine serverReadyPrefix (serverExecutable home) ++ served)) rest
      lines.flatten lines (printLine serverReadyPrefix (serverExecutable home)) notices startup :=
    { before := hall, line := isLine_ready hlf, valid := valid_ready_iff.mpr hvalid
      reports := trimEnd_ready _, named := by simp [serverExecutable, underHome, ascii]
      handedOn := rfl, serves := ⟨served, by rw [List.append_assoc], hserves⟩ }
  exact ⟨_, _, (starts_iff _ _ _ _ _ _ _ _ _ _).mpr ⟨rfl, _, _, _, _, hstarts⟩⟩

theorem isLine_unable : IsLine (printLine serverErrorPrefix unable) := isLine_printLine rfl

theorem onResultLine_unable (output : Bytes) :
    onResultLine output (printLine serverErrorPrefix unable) =
      .ended (.error (.installer unable)) output := by
  have hvalid : Valid (printLine serverErrorPrefix unable) := .ofAscii rfl
  have hno : report serverReadyPrefix (printLine serverErrorPrefix unable) = none := by decide
  have herror : report serverErrorPrefix (printLine serverErrorPrefix unable) = some unable :=
    report_eq_some.mpr (trimEnd_printLine rfl (by decide))
  rw [onResultLine, readLine_of_valid hvalid, hno, herror]

/-- What the client does with the report that there is none. -/
theorem unable_ends {lines : List Bytes}
    (hall : ∀ line ∈ lines, IsLine line ∧ isNoise line = true) :
    ∃ w output, AlwaysEnds (startOver script forceInstall parse) closes .ensure
      (lines.flatten ++ (printLine serverErrorPrefix unable ++ served)) w
      (.error (.installer unable), output) served := by
  have hgives : Gives (startOver script forceInstall parse) closes
      (.awaitResult ([] ++ lines.flatten)) (printLine serverErrorPrefix unable ++ served) []
      (.error (.installer unable), lines.flatten) served 1 := by
    refine .read rfl (isLine_unable.cut served) ?_
    rw [List.nil_append, onResultLine_unable]
    exact .done rfl
  obtain ⟨m, hm⟩ := result_loop.gives _ hall hgives
  exact ⟨_, _, alwaysEnds_iff.mpr ⟨_, .write rfl hm⟩⟩

theorem isNoise_lines {lines : List Bytes}
    (hbanner : ∀ line ∈ banner, IsLine line ∧ isNoise line = true)
    (hlines : ∀ line ∈ lines, IsLine line ∧ isNoise line = true) :
    ∀ line ∈ banner ++ lines, IsLine line ∧ isNoise line = true := fun line hmem =>
  (List.mem_append.mp hmem).elim (hbanner line) (hlines line)

/-- **The server that runs is the one the script checked, exactly if the home directory's path
is text without a line feed**: where the script found or installed an executable, which prints
what a server does.  Then that path is a word of the shell's command.  Where the script found
none the client is told so. -/
theorem runs_what_was_checked (script : Bytes)
    (hbanner : ∀ line ∈ banner, IsLine line ∧ isNoise line = true)
    (hlines : ∀ line ∈ printed, IsLine line ∧ isNoise line = true)
    (hprinted : host.printed = printed.flatten)
    (hserves : Serves parse info served rest notices startup) :
    (host.isReady forceInstall = true →
      ((∃ w output, AlwaysEnds (startOver script forceInstall parse) closes .ensure
          (banner.flatten ++ host.ensureServer forceInstall ++ served) w
          (.ok (serverExecutable host.home, info), output) rest) ↔
        Valid host.home ∧ Frame.lineFeed ∉ host.home) ∧
      (0 ∉ host.home → ∃ line, launchCommand (serverExecutable host.home) = line ++ [newline] ∧
        arguments line = .ok [ascii "exec", serverExecutable host.home, ascii "serve"])) ∧
    (host.isReady forceInstall = false →
      ∃ w output, AlwaysEnds (startOver script forceInstall parse) closes .ensure
        (banner.flatten ++ host.ensureServer forceInstall ++ served) w
        (.error (.installer unable), output) served) := by
  obtain ⟨lines, hwhich, heq⟩ := ensureServer_eq forceInstall hprinted
  have hnoise : ∀ line ∈ lines, IsLine line ∧ isNoise line = true := by
    rcases hwhich with rfl | rfl
    · exact hlines
    · nofun
  have hall := isNoise_lines hbanner hnoise
  have hinput : banner.flatten ++ host.ensureServer forceInstall ++ served =
      (banner ++ lines).flatten ++ ((if host.isReady forceInstall then
        printLine serverReadyPrefix (serverExecutable host.home)
        else printLine serverErrorPrefix unable) ++ served) := by
    rw [heq, List.flatten_append]
    simp only [List.append_assoc]
  rw [hinput]
  constructor
  · intro hready
    rw [if_pos hready]
    refine ⟨⟨?_, ?_⟩, fun hzero => launchCommand_words ?_⟩
    · rintro ⟨w, output, hends⟩
      obtain ⟨n, h⟩ := alwaysEnds_iff.mp hends
      cases h with
      | done hc => cases hc
      | read hc _ _ => cases hc
      | eof hc _ _ _ => cases hc
      | write hc hnext =>
        cases hc
        obtain ⟨m, hm⟩ := result_loop.gives_inv hall hnext
        exact ready_inv hm
    · rintro ⟨hvalid, hlf⟩
      exact ready_ends hall hserves hvalid hlf
    · rw [serverExecutable, List.mem_append]
      rintro (hmem | hmem)
      · exact hzero hmem
      · exact absurd hmem (by decide)
  · intro hready
    rw [hready]
    exact unable_ends hall

/-- A host where the executable is there. -/
def installedHost : RemoteHost := ⟨ascii "/home/u", true, false, [], false, false⟩

def startupJson : Bytes := ascii "\x7b\"port\":43827,\"token\":\"t\"\x7d"

/-- What `serde_json` makes of one text. -/
def parseStartup (json : Bytes) : Except String (UInt16 × Bytes) :=
  if json = startupJson then .ok (43827, ascii "t") else .error "expected value"

theorem serves_startupJson : Serves parseStartup ⟨43827, ascii "t"⟩
    (printLine serverStartupPrefix startupJson) [] [] (printLine serverStartupPrefix startupJson)
    where
  before := nofun
  line := isLine_printLine rfl
  reports := ⟨.ofAscii rfl, by decide, startupJson, trimEnd_printLine rfl (by decide), by decide⟩
  all := by rw [List.append_nil]; rfl

/-- Behind a banner. -/
theorem runs_what_was_checked_installedHost :
    ∃ w output, AlwaysEnds (startOver [] false parseStartup) true .ensure
      ([ascii "welcome\n"].flatten ++ installedHost.ensureServer false ++
        printLine serverStartupPrefix startupJson) w
      (.ok (serverExecutable installedHost.home, ⟨43827, ascii "t"⟩), output) [] := by
  have hbanner : ∀ line ∈ [ascii "welcome\n"], IsLine line ∧ isNoise line = true := by
    rintro line hline
    obtain rfl := List.mem_singleton.mp hline
    exact ⟨⟨ascii "welcome", by decide, by decide⟩,
      isNoise_iff.mpr ⟨.ofAscii rfl, by decide, by decide⟩⟩
  have hprinted : ∀ line ∈ ([] : List Bytes), IsLine line ∧ isNoise line = true := nofun
  have hhome : Valid installedHost.home ∧ Frame.lineFeed ∉ installedHost.home :=
    ⟨.ofAscii rfl, by decide⟩
  exact ((runs_what_was_checked [] hbanner hprinted rfl serves_startupJson).1 rfl).1.mpr hhome

end RemoteHost

end FilePeeker.Connections

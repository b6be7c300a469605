import FilePeeker.Home.Home
import FilePeeker.Lib.ShellWords

/-!
# What a client has a remote shell read

A client runs a command on a host through `ssh`, which hands it to the login shell there as
text.  `quote` writes a word so that a shell reads the word back (`readsAs_quote`): a word
of a few harmless bytes is its own text, and any other stands between single quotes, where
only the quote itself has to be written some other way.

`Ssh::command` quotes a whole script this way, as the word behind `sh -c`, and in the
script there may be quoted words again.  The two levels do not meet
(`quoted_words_arrive`): the login shell makes the script of its word, byte for byte, and
the inner one makes the words of the script's.
-/

namespace FilePeeker.Client

open Utf8 Shell

/-! ### The texts -/

/-- The bytes that no shell takes for anything else. -/
def isSafe (c : UInt8) : Bool := isAlphanumeric c || (ascii "-_./=:@%+,").contains c

/-- A single quote between double quotes, out of single quotes and back in. -/
def quotedQuote : Bytes := ascii "'\"'\"'"

def quote (argument : Bytes) : Bytes :=
  if argument ≠ [] ∧ argument.all isSafe then argument
  else singleQuote :: (argument.flatMap fun c => if c = singleQuote then quotedQuote else [c]) ++
    [singleQuote]

/-- The text of `host_dir_script`. -/
def hostDirScriptText (profile : Profile) : Bytes :=
  ascii "if [ -n \"$\x7bFILE_PEEKER_HOME:-\x7d\" ]; then
    FPK_HOST_DIR=$FILE_PEEKER_HOME
else
    fpk_id() \x7b
        id=$(printf %s \"$1\" | tr -d ' \\t\\n-' | tr 'A-F' 'a-f')
        case \"$id\" in *[!0-9a-f]*) return 1 ;; esac
        # Empty, or all zeros: no ID.
        case \"$id\" in *[!0]*) ;; *) return 1 ;; esac
        [ $\x7b#id\x7d -eq 32 ]
    \x7d
    id=
    case \"$(uname -s)\" in
    Darwin)
        fpk_id \"$(ioreg -rd1 -c IOPlatformExpertDevice | sed -n 's/.*\"IOPlatformUUID\" = \"\\(.*\\)\".*/\\1/p')\" || id=
        ;;
    *)
        for f in /etc/machine-id /var/lib/dbus/machine-id; do
            if [ -r \"$f\" ] && fpk_id \"$(cat \"$f\")\"; then break; fi
            id=
        done
        ;;
    esac
    if [ -z \"$id\" ]; then
        echo \"fpk: cannot read this machine's ID\" >&2
        exit 2
    fi
    FPK_HOST_DIR=\"$HOME/" ++ directoryName profile ++ ascii "/" ++ hosts ++ ascii "/$id\"
fi
export FPK_HOST_DIR"

inductive Stdio
  | null
  | piped
deriving DecidableEq, Repr

structure SshCommand where
  program : Bytes
  args : List Bytes
  stdin : Stdio
deriving DecidableEq

structure Ssh where
  program : Bytes
  target : Bytes
  options : List Bytes
deriving DecidableEq

/-- The script that an inner shell is to run. -/
def hostScript (profile : Profile) (remote : Bytes) : Bytes :=
  hostDirScriptText profile ++ newline :: remote

def Ssh.command (ssh : Ssh) (profile : Profile) (remote : Bytes) : SshCommand where
  program := ssh.program
  args := ssh.options ++ [ascii "-T"] ++ [ssh.target] ++
    [ascii "sh -c " ++ quote (hostScript profile remote)]
  stdin := .null

/-- Words behind a blank each. -/
def joined (args : List Bytes) : Bytes := [space].intercalate (args.map quote)

/-- The command `run_script` spawns. -/
def runScript (ssh : Ssh) (profile : Profile) (args : List Bytes) : SshCommand :=
  { ssh.command profile (ascii "sh -s -- " ++ joined args) with stdin := .piped }

/-! ### One word -/

variable {r : Reader} {argument remote : Bytes} {args : List Bytes} {c : UInt8}

theorem isOrdinary_of_isSafe : ∀ c : UInt8, isSafe c → isOrdinary c :=
  forall_byte (by decide +kernel)

/-- Out of the quotes, the quote itself, and back in again. -/
theorem read_quotedQuote (hmode : r.mode = .single) (hword : r.word.isSome) :
    r.read quotedQuote = .ok (r.put singleQuote true .single) := by
  obtain ⟨words, word, mode⟩ := r
  obtain ⟨word, rfl⟩ := Option.isSome_iff_exists.mp hword
  subst hmode
  rfl

/-- Between the quotes the reader is given the argument, whatever its bytes. -/
theorem read_quoted (hzero : 0 ∉ argument) (hmode : r.mode = .single) (hword : r.word.isSome) :
    r.read (argument.flatMap fun c => if c = singleQuote then quotedQuote else [c]) =
      .ok (r.extend (argument.map fun c => (c, true))) := by
  induction argument generalizing r with
  | nil =>
    obtain ⟨words, word, mode⟩ := r
    obtain ⟨word, rfl⟩ := Option.isSome_iff_exists.mp hword
    simp [Reader.extend]
  | cons c argument ih =>
    obtain ⟨hc, hargument⟩ := not_or.mp (List.mem_cons.not.mp hzero)
    have hhead : r.read (if c = singleQuote then quotedQuote else [c]) =
        .ok (r.put c true .single) := by
      split_ifs with hquote
      · rw [hquote]
        exact read_quotedQuote hmode hword
      · rw [Reader.read_cons_of_next (Reader.next_single hmode (Ne.symm hc) hquote),
          Reader.read_nil]
    rw [List.flatMap_cons, Reader.read_append_of_read hhead, ih hargument rfl rfl, List.map_cons]
    simp [Reader.put, Reader.extend, hmode]

/-- A shell reads a quoted argument as one word, which is the argument. -/
theorem readsAs_quote (hzero : 0 ∉ argument) :
    ∃ w, ReadsAs (quote argument) w ∧ unquoted w = argument := by
  rw [quote]
  split_ifs with hsafe
  · refine ⟨_, readsAs_ordinary hsafe.1 fun c hc => ?_, ?_⟩
    · exact isOrdinary_of_isSafe c (List.all_eq_true.mp hsafe.2 c hc)
    · rw [unquoted, List.map_map]
      exact List.map_id _
  · refine ⟨argument.map fun c => (c, true), fun r hmode => ?_, ?_⟩
    · rw [List.cons_append, Reader.read_cons_of_next (Reader.next_open hmode),
        Reader.read_append_of_read (read_quoted hzero rfl rfl),
        Reader.read_cons_of_next (Reader.next_close rfl), Reader.read_nil]
      simp [Reader.enter, Reader.extend, hmode]
    · rw [unquoted, List.map_map]
      exact List.map_id _

theorem readsAs_quotes (hzero : ∀ argument ∈ args, 0 ∉ argument) :
    ∃ ws, List.Forall₂ ReadsAs (args.map quote) ws ∧ ws.map unquoted = args := by
  induction args with
  | nil => exact ⟨[], .nil, rfl⟩
  | cons argument args ih =>
    obtain ⟨hargument, hargs⟩ := List.forall_mem_cons.mp hzero
    obtain ⟨w, hw, hunquoted⟩ := readsAs_quote hargument
    obtain ⟨ws, hws, hmap⟩ := ih hargs
    exact ⟨w :: ws, .cons hw hws, by rw [List.map_cons, hunquoted, hmap]⟩

/-! ### A command -/

/-- Wherever a reader stands outside of quotes, quoted words behind a blank are the words
that come next. -/
theorem read_joined (hzero : ∀ argument ∈ args, 0 ∉ argument) (hmode : r.mode = .plain) :
    ∃ r', r.read (space :: joined args) = .ok r' ∧ r'.mode = .plain ∧
      r'.delimit.words.map unquoted = r.delimit.words.map unquoted ++ args := by
  obtain ⟨ws, hws, hmap⟩ := readsAs_quotes hzero
  have hmode' : r.delimit.mode = .plain := by rwa [Reader.delimit_mode]
  obtain ⟨r', hread, hplain, hwords⟩ := read_words hws r.delimit hmode' r.delimit_word
  refine ⟨r', ?_, hplain, ?_⟩
  · rw [Reader.read_cons_of_next (Reader.next_space hmode)]
    exact hread
  · rw [hwords, List.map_append, hmap]

theorem arguments_joined {line : Bytes} {words : List Bytes} (hline : arguments line = .ok words)
    (hne : words ≠ []) (hzero : ∀ argument ∈ args, 0 ∉ argument) :
    arguments (line ++ space :: joined args) = .ok (words ++ args) := by
  obtain ⟨ws, hws, hmap⟩ := readsAs_quotes hzero
  rw [joined, arguments_words hline hne hws, hmap]

/-- A literal is read off its characters, not off the bytes they are kept in. -/
theorem zero_notMem_ascii {text : List Char} (h : text.all fun c => c.toNat.toUInt8 ≠ 0) :
    0 ∉ ascii (String.ofList text) := by
  rw [ascii, String.toList_ofList]
  intro hmem
  obtain ⟨c, hc, hzero⟩ := List.mem_map.mp hmem
  simpa [hzero] using List.all_eq_true.mp h c hc

set_option maxRecDepth 8000 in
theorem zero_notMem_hostDirScriptText (profile : Profile) : 0 ∉ hostDirScriptText profile := by
  rw [hostDirScriptText]
  simp only [List.mem_append, not_or]
  refine ⟨⟨⟨⟨zero_notMem_ascii ?_, ?_⟩, by decide⟩, by decide⟩, by decide⟩
  · decide +kernel
  · cases profile <;> decide

theorem zero_notMem_hostScript {profile : Profile} (hremote : 0 ∉ remote) :
    0 ∉ hostScript profile remote := by
  rw [hostScript, List.mem_append, List.mem_cons]
  rintro (h | h | h)
  · exact zero_notMem_hostDirScriptText profile h
  · exact absurd h (by decide)
  · exact hremote h

/-- The login shell hands the inner one the script, as it was written. -/
theorem arguments_shC {script : Bytes} (hzero : 0 ∉ script) :
    arguments (ascii "sh -c " ++ quote script) = .ok [ascii "sh", ascii "-c", script] := by
  have hline : arguments (ascii "sh -c") = .ok [ascii "sh", ascii "-c"] := by decide
  have hspace : ascii "sh -c " = ascii "sh -c" ++ [space] := by decide
  have h := arguments_joined hline (List.cons_ne_nil _ _) (List.forall_mem_singleton.mpr hzero)
  rw [joined, List.map_singleton, List.intercalate_singleton] at h
  rw [hspace, List.append_assoc, List.singleton_append, h, List.cons_append, List.cons_append,
    List.nil_append]

theorem zero_notMem_quote (hzero : 0 ∉ argument) : 0 ∉ quote argument := by
  rw [quote]
  split_ifs
  · exact hzero
  · rw [List.cons_append, List.mem_cons, List.mem_append, List.mem_flatMap]
    rintro (h | ⟨c, hc, h⟩ | h)
    · exact absurd h (by decide)
    · split_ifs at h
      · exact absurd h (by decide)
      · exact hzero (List.mem_singleton.mp h ▸ hc)
    · exact absurd h (by decide)

theorem zero_notMem_joined (hzero : ∀ argument ∈ args, 0 ∉ argument) : 0 ∉ joined args := by
  rw [joined]
  induction args with
  | nil => exact List.not_mem_nil
  | cons argument args ih =>
    obtain ⟨hargument, hargs⟩ := List.forall_mem_cons.mp hzero
    cases args with
    | nil =>
      rw [List.map_singleton, List.intercalate_singleton]
      exact zero_notMem_quote hargument
    | cons next args =>
      rw [List.map_cons, List.map_cons, List.intercalate_cons_cons, List.mem_append,
        List.mem_append, ← List.map_cons]
      rintro ((h | h) | h)
      · exact zero_notMem_quote hargument h
      · exact absurd h (by decide)
      · exact ih hargs h

/-- **Quoted words arrive as they are.**  They are the words of any command they stand
behind; the word of `sh -c` is the script that finds the host's directory and then the
remote text; and the arguments of a script come through both shells. -/
theorem quoted_words_arrive (profile : Profile) (ssh : Ssh) :
    (∀ (r : Reader) (args : List Bytes), r.mode = .plain → (∀ argument ∈ args, 0 ∉ argument) →
      ∃ r', r.read (space :: joined args) = .ok r' ∧ r'.mode = .plain ∧
        r'.delimit.words.map unquoted = r.delimit.words.map unquoted ++ args) ∧
    (∀ (line : Bytes) (words args : List Bytes), arguments line = .ok words → words ≠ [] →
      (∀ argument ∈ args, 0 ∉ argument) →
      arguments (line ++ space :: joined args) = .ok (words ++ args)) ∧
    (∀ remote : Bytes, 0 ∉ remote → ∃ text,
      (ssh.command profile remote).args = ssh.options ++ [ascii "-T", ssh.target, text] ∧
      arguments text =
        .ok [ascii "sh", ascii "-c", hostDirScriptText profile ++ newline :: remote]) ∧
    ∀ args : List Bytes, (∀ argument ∈ args, 0 ∉ argument) → ∃ text remote,
      (runScript ssh profile args).args = ssh.options ++ [ascii "-T", ssh.target, text] ∧
      arguments text =
        .ok [ascii "sh", ascii "-c", hostDirScriptText profile ++ newline :: remote] ∧
      arguments remote = .ok ([ascii "sh", ascii "-s", ascii "--"] ++ args) := by
  have hcommand : ∀ remote : Bytes, (ssh.command profile remote).args = ssh.options ++
      [ascii "-T", ssh.target, ascii "sh -c " ++ quote (hostScript profile remote)] := by
    intro remote
    rw [Ssh.command, List.append_assoc, List.append_assoc]
    rfl
  have hline : arguments (ascii "sh -s --") = .ok [ascii "sh", ascii "-s", ascii "--"] := by
    decide
  have hspace : ascii "sh -s -- " = ascii "sh -s --" ++ [space] := by decide
  refine ⟨fun r args hmode hzero => read_joined hzero hmode,
    fun line words args hline hne hzero => arguments_joined hline hne hzero,
    fun remote hremote => ⟨_, hcommand remote, arguments_shC (zero_notMem_hostScript hremote)⟩,
    fun args hzero => ⟨_, ascii "sh -s -- " ++ joined args, hcommand _, ?_, ?_⟩⟩
  · refine arguments_shC (zero_notMem_hostScript ?_)
    exact List.mem_append.not.mpr (not_or.mpr ⟨by decide, zero_notMem_joined hzero⟩)
  · rw [hspace, List.append_assoc, List.singleton_append]
    exact arguments_joined hline (List.cons_ne_nil _ _) hzero

/-- A quote and a variable, behind `printf %s`. -/
theorem quoted_variable_arrives :
    arguments (ascii "printf %s" ++ space :: joined [ascii "it's $HOME"]) =
      .ok [ascii "printf", ascii "%s", ascii "it's $HOME"] :=
  (quoted_words_arrive .release ⟨ascii "ssh", ascii "host", []⟩).2.1 (ascii "printf %s")
    [ascii "printf", ascii "%s"] [ascii "it's $HOME"] (by decide) (by decide) (by decide)

end FilePeeker.Client

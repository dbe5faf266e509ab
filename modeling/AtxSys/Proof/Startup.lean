import AtxSys.Lib.Changes
import AtxSys.Startup
import Mathlib.Data.List.TakeDrop

/-!
# What a start makes of its command line

`args_parse` exits exactly if `getopt` comes to a letter that is no setting. Otherwise every setting
has the value that was given last, where `getopt` permutes; where it does not, nothing behind the
first value counts.

The daemon changes its working directory before it opens anything but the configuration. A name
stands for the same file before and after if it is absolute; only the path of the log is made so,
and it has to fit in the array twice.
-/

namespace AtxSys

open CText Getopt

/-! ### The command line -/

inductive Setting where
  | log
  | env
  | usr
  | port
  | www
  deriving DecidableEq

def Setting.flag : Setting → UInt8
  | .log => 0x6C
  | .env => 0x65
  | .usr => 0x75
  | .port => 0x70
  | .www => 0x77

def AtxsysConfig.name (c : AtxsysConfig) : Setting → Option Bytes
  | .log => c.log
  | .env => c.env
  | .usr => c.usr
  | .port => c.port
  | .www => c.www

/-- What a command line is written of. -/
inductive Word where
  | setting (s : Setting) (value : Operand)
  | daemon
  | operand (value : Operand)

namespace Word

def elements : Word → List Bytes
  | .setting s value => [[dash, s.flag], value.1]
  | .daemon => [[dash, 0x64]]
  | .operand value => [value.1]

def isDaemon : Word → Bool
  | .daemon => true
  | _ => false

def given (s : Setting) : Word → List (Option Bytes)
  | .setting t value => if t = s then [some value.1] else []
  | _ => []

/-- The words up to the first operand or value. -/
def upToOperand : List Word → List Word
  | [] => []
  | word :: words => word :: if word.isDaemon then upToOperand words else []

end Word

/-- The settings `c'` are those of `c` with the changes that the words say. -/
structure Says (words : List Word) (c c' : AtxsysConfig) : Prop where
  names : ∀ s, c'.name s = Changes.last (c.name s) (words.flatMap (Word.given s))
  daemon : c'.daemon = (c.daemon || words.any Word.isDaemon)

namespace Says

theorem refl (c : AtxsysConfig) : Says [] c c := by
  refine ⟨fun s => rfl, ?_⟩
  rw [List.any_nil, Bool.or_false]

theorem trans {words words' : List Word} {c c' c'' : AtxsysConfig} (h : Says words c c')
    (h' : Says words' c' c'') : Says (words ++ words') c c'' := by
  constructor
  · intro s
    rw [h'.names, h.names, List.flatMap_append, Changes.last_append]
  · rw [h'.daemon, h.daemon, List.any_append, Bool.or_assoc]

end Says

theorem argsStep_setting (c : AtxsysConfig) (s : Setting) (value : Operand) :
    ∃ c', argsStep c ⟨s.flag, some value.1⟩ = .ok c' ∧ Says [.setting s value] c c' := by
  cases s
  all_goals
    refine ⟨_, rfl, ?_, ?_⟩
    · intro s
      cases s <;> rfl
    · exact (Bool.or_false _).symm

theorem argsStep_daemon (c : AtxsysConfig) (arg : Option Bytes) :
    ∃ c', argsStep c ⟨0x64, arg⟩ = .ok c' ∧ Says [.daemon] c c' := by
  refine ⟨{ c with daemon := true }, rfl, ?_, ?_⟩
  · intro s
    cases s <;> rfl
  · exact (Bool.or_true _).symm

theorem says_operand (c : AtxsysConfig) (value : Operand) : Says [.operand value] c c :=
  ⟨fun _ => rfl, (Bool.or_false _).symm⟩

theorem flag_mem (s : Setting) : s.flag ∈ optString ∧ s.flag ≠ dash := by
  cases s <;> decide

/-- The loop over the words of a line, from any settings. -/
theorem argsLoop_words (permute : Bool) (words : List Word) (c : AtxsysConfig) :
    ∃ c', argsParse permute c (words.flatMap Word.elements) = .ok c' ∧
      Says (if permute then words else Word.upToOperand words) c c' := by
  induction words generalizing c with
  | nil =>
      refine ⟨c, rfl, ?_⟩
      cases permute <;> exact .refl c
  | cons word words ih =>
      rw [List.flatMap_cons, argsParse]
      cases word with
      | setting s value =>
          obtain ⟨c₁, hstep, hsays⟩ := argsStep_setting c s value
          rw [Word.elements, List.cons_append, List.singleton_append,
            scan_option (flag_mem s).1 (flag_mem s).2, List.head?_cons, scan_operand,
            List.foldlM_cons, hstep]
          cases permute with
          | true =>
              obtain ⟨c', hparse, hrest⟩ := ih c₁
              exact ⟨c', hparse, hsays.trans hrest⟩
          | false => exact ⟨c₁, rfl, hsays⟩
      | daemon =>
          obtain ⟨c₁, hstep, hsays⟩ :=
            argsStep_daemon c (words.flatMap Word.elements).head?
          obtain ⟨c', hparse, hrest⟩ := ih c₁
          rw [Word.elements, List.singleton_append, scan_option (by decide) (by decide),
            List.foldlM_cons, hstep]
          refine ⟨c', hparse, ?_⟩
          cases permute <;> exact hsays.trans hrest
      | operand value =>
          rw [Word.elements, List.singleton_append, scan_operand]
          cases permute with
          | true =>
              obtain ⟨c', hparse, hrest⟩ := ih c
              exact ⟨c', hparse, (says_operand c value).trans hrest⟩
          | false => exact ⟨c, rfl, says_operand c value⟩

/-! ### The exits -/

/-- The letters that do not end the program. -/
def settingLetters : Bytes := bytes "lwpedu"

theorem argsStep_letter (c : AtxsysConfig) {opt : Opt} (h : opt.char ∈ settingLetters) :
    ∃ c', argsStep c opt = .ok c' := by
  obtain ⟨char, arg⟩ := opt
  have hcases : char = 0x6C ∨ char = 0x77 ∨ char = 0x70 ∨ char = 0x65 ∨ char = 0x64 ∨
      char = 0x75 := by
    simpa [settingLetters, bytes] using h
  rcases hcases with rfl | rfl | rfl | rfl | rfl | rfl
  all_goals exact ⟨_, rfl⟩

theorem argsStep_usage (c : AtxsysConfig) {opt : Opt} (hopt : opt.char ∈ optString)
    (h : opt.char ∉ settingLetters) : argsStep c opt = .error 0 := by
  obtain ⟨char, arg⟩ := opt
  have hletters : optString.all fun char => char ∈ settingLetters ∨ char = 0x68 ∨ char = 0x3F := by
    decide
  have hcases := of_decide_eq_true (List.all_eq_true.mp hletters char hopt)
  rcases hcases with hmem | rfl | rfl
  · exact absurd hmem h
  · rfl
  · rfl

theorem argsLoop_error_iff {opts : List Opt} {c : AtxsysConfig} {code : Int}
    (h : ∀ opt ∈ opts, opt.char ∈ optString) :
    opts.foldlM argsStep c = .error code ↔
      code = 0 ∧ ∃ opt ∈ opts, opt.char ∉ settingLetters := by
  induction opts generalizing c with
  | nil => simp [pure, Except.pure]
  | cons opt opts ih =>
      rw [List.foldlM_cons, List.exists_mem_cons_iff]
      by_cases hchar : opt.char ∈ settingLetters
      · obtain ⟨c', hstep⟩ := argsStep_letter c hchar
        rw [hstep, or_iff_right (not_not.mpr hchar)]
        exact ih fun opt hmem => h opt (List.mem_cons_of_mem _ hmem)
      · rw [argsStep_usage c (h opt List.mem_cons_self) hchar]
        change (Except.error 0 : Except Int AtxsysConfig) = .error code ↔ _
        rw [Except.error.injEq, and_iff_left (.inl hchar)]
        exact eq_comm

theorem optChar_mem (char : UInt8) : optChar optString char ∈ optString := by
  rw [optChar]
  split
  · assumption
  · decide

theorem optChar_settingLetters (char : UInt8) :
    optChar optString char ∈ settingLetters ↔ char ∈ settingLetters := by
  have hsubset : settingLetters ⊆ optString := by decide
  rw [optChar]
  split
  · rfl
  · rename_i hchar
    have hquestion : question ∉ settingLetters := by decide
    exact iff_of_false hquestion fun h => hchar (hsubset h)

/-- The program exits with 0, at the first letter that is no setting. -/
theorem argsParse_error_iff (permute : Bool) (c : AtxsysConfig) (argv : List Bytes) (code : Int) :
    argsParse permute c argv = .error code ↔
      code = 0 ∧ ∃ element ∈ clusters permute argv, ∃ char ∈ element.tail,
        char ∉ settingLetters := by
  have hchars : ∀ char, char ∈ (scan optString permute argv).map Opt.char ↔
      ∃ element ∈ clusters permute argv, ∃ letter ∈ element.tail,
        optChar optString letter = char := by
    intro char
    rw [scan_char, List.mem_flatMap]
    simp only [List.mem_map]
  rw [argsParse, argsLoop_error_iff]
  · apply and_congr_right'
    constructor
    · rintro ⟨opt, hopt, hchar⟩
      obtain ⟨element, helement, letter, hletter, heq⟩ :=
        (hchars opt.char).mp (List.mem_map_of_mem hopt)
      refine ⟨element, helement, letter, hletter, fun h => hchar ?_⟩
      rw [← heq]
      exact (optChar_settingLetters letter).mpr h
    · rintro ⟨element, helement, letter, hletter, hchar⟩
      obtain ⟨opt, hopt, heq⟩ :=
        List.mem_map.mp ((hchars _).mpr ⟨element, helement, letter, hletter, rfl⟩)
      refine ⟨opt, hopt, ?_⟩
      rw [heq, optChar_settingLetters]
      exact hchar
  · intro opt hopt
    obtain ⟨-, -, letter, -, heq⟩ := (hchars opt.char).mp (List.mem_map_of_mem hopt)
    rw [← heq]
    exact optChar_mem letter

/-- For every command line the program exits, always with 0, exactly if it comes to a letter that is
no setting. A line that is written of settings and operands sets what was given last, or where
`getopt` does not permute what stands before the end of the first value. -/
theorem argsParse_commandLine (permute : Bool) :
    (∀ argv code, argsParse permute mainConfig argv = .error code ↔
      code = 0 ∧ ∃ element ∈ clusters permute argv, ∃ char ∈ element.tail,
        char ∉ settingLetters) ∧
    ∀ words : List Word, ∃ c, argsParse permute mainConfig (words.flatMap Word.elements) = .ok c ∧
      Says (if permute then words else Word.upToOperand words) mainConfig c :=
  ⟨argsParse_error_iff permute mainConfig, fun words => argsLoop_words permute words mainConfig⟩

/-! ### The names -/

section Names

variable {cwd : WorkingDir} {daemon : Bool} {name b : Bytes}

/-- The name stands for the same path before and behind `if (c->daemon)`. -/
def Anchored (cwd : WorkingDir) (daemon : Bool) (name : Bytes) : Prop :=
  daemon = false ∨ cwd.path = [slash] ∨ (cstr name).head? = some slash

theorem resolve_cstr (dir name : Bytes) : resolve dir (cstr name) = resolve dir name := by
  rw [resolve, resolve, cstr_eq_self (zero_notMem_cstr name)]

theorem resolve_absolute {dir : Bytes} (h : (cstr name).head? = some slash) :
    resolve dir name = cstr name := if_pos h

theorem resolve_relative {dir : Bytes} (h : (cstr name).head? ≠ some slash) :
    resolve dir name = dir ++ slash :: cstr name := if_neg h

theorem resolve_inj {dir dir' : Bytes} (h : (cstr name).head? ≠ some slash) :
    resolve dir name = resolve dir' name ↔ dir = dir' := by
  rw [resolve_relative h, resolve_relative h, List.append_left_inj]

/-- The directory behind `if (c->daemon)`, in a process that goes on. -/
theorem daemonDir_eq_ok {io : DaemonIo} {dir : Bytes} (h : daemonDir cwd io daemon = .ok dir) :
    dir = if daemon then [slash] else cwd.path := by
  rw [daemonDir] at h
  split at h
  · split at h
    · cases h
    · rw [← Except.ok.inj h, if_pos ‹_›]
  · rw [← Except.ok.inj h, if_neg ‹_›]

theorem resolve_daemon_iff :
    resolve (if daemon then [slash] else cwd.path) name = resolve cwd.path name ↔
      Anchored cwd daemon name := by
  by_cases habsolute : (cstr name).head? = some slash
  · rw [resolve_absolute habsolute, resolve_absolute habsolute]
    exact iff_of_true rfl (.inr (.inr habsolute))
  · rw [resolve_inj habsolute, Anchored, or_iff_left habsolute]
    cases daemon with
    | true =>
        rw [if_pos rfl, or_iff_right Bool.true_eq_false.mp, eq_comm]
    | false => exact iff_of_true rfl (.inl rfl)

theorem map_resolve_iff (name : Option Bytes) :
    name.map (resolve (if daemon then [slash] else cwd.path)) = name.map (resolve cwd.path) ↔
      ∀ n ∈ name, Anchored cwd daemon n := by
  cases name with
  | none => simp
  | some n => simp [resolve_daemon_iff]

/-! ### The log -/

/-- The path of the log fits in the array: a name that is taken as it is, or the working directory
in a half of the array and both of them in the whole. -/
def LogFits (cwd : WorkingDir) (daemon : Bool) (name : Bytes) : Prop :=
  if (cstr name).head? = some slash ∨ (cstr name).head? = some backslash then
    (cstr name).length < logPathSize ∧ Anchored cwd daemon name
  else 2 * cwd.path.length < logPathSize ∧
    cwd.path.length + 1 + (cstr name).length < logPathSize

theorem logPath_kept (h : (cstr name).head? = some slash ∨ (cstr name).head? = some backslash)
    (hpath : logPath cwd (some name) = .ok b) : b = (cstr name).take (logPathSize - 1) := by
  rw [logPath, formatText_str, run_bind_ok, if_pos h] at hpath
  exact (Except.ok.inj hpath).symm

theorem logPath_joined
    (h : ¬((cstr name).head? = some slash ∨ (cstr name).head? = some backslash))
    (hpath : logPath cwd (some name) = .ok b) :
    b = if 2 * cwd.path.length < logPathSize then
        cwd.path ++ slash :: (cstr name).take (logPathSize - 2 - cwd.path.length)
      else cwd.path ++ (cstr name).take (logPathSize - 1 - cwd.path.length) := by
  rw [logPath, formatText_str, run_bind_ok, if_neg h, getcwd] at hpath
  split at hpath
  · rw [run_bind_ok] at hpath
    rw [← Except.ok.inj hpath]
    by_cases hhalf : cwd.path.length < logPathSize - cwd.path.length
    · have hroom : logPathSize - (cwd.path ++ [slash]).length - 1 =
          logPathSize - 2 - cwd.path.length := by
        rw [List.length_append, List.length_singleton]
        omega
      rw [if_pos hhalf, if_pos (by omega), hroom, List.append_assoc, List.singleton_append]
    · have hroom : logPathSize - cwd.path.length - 1 = logPathSize - 1 - cwd.path.length := by
        omega
      rw [if_neg hhalf, if_neg (by omega), hroom]
  · cases hpath

theorem WorkingDir.length_pos (cwd : WorkingDir) : 0 < cwd.path.length := by
  obtain ⟨path, habsolute, -⟩ := cwd
  cases path with
  | nil => cases habsolute
  | cons c path => exact Nat.succ_pos _

/-- The path is a text, so that `fopen` sees all of it. -/
theorem logPath_text (hpath : logPath cwd (some name) = .ok b) : cstr b = b := by
  apply cstr_eq_self
  have htake : ∀ n, 0 ∉ (cstr name).take n := fun n h =>
    zero_notMem_cstr name (List.mem_of_mem_take h)
  by_cases h : (cstr name).head? = some slash ∨ (cstr name).head? = some backslash
  · rw [logPath_kept h hpath]
    exact htake _
  · rw [logPath_joined h hpath]
    split <;> simp [cwd.htext, htake, slash]

theorem head?_append_path (cwd : WorkingDir) (rest : Bytes) :
    (cwd.path ++ rest).head? = some slash := by
  rw [List.head?_append, cwd.habsolute, Option.some_or]

/-- A name that is taken as it is. -/
theorem resolve_kept_iff
    (h : (cstr name).head? = some slash ∨ (cstr name).head? = some backslash)
    (hpath : logPath cwd (some name) = .ok b) :
    resolve (if daemon then [slash] else cwd.path) b = resolve cwd.path name ↔
      (cstr name).length < logPathSize ∧ Anchored cwd daemon name := by
  have hb := logPath_kept h hpath
  by_cases hfits : (cstr name).length < logPathSize
  · have htake : b = cstr name := by
      rw [hb, List.take_eq_self_iff]
      omega
    rw [htake, resolve_cstr, resolve_daemon_iff, and_iff_right hfits]
  · refine iff_of_false (fun heq => ?_) fun h => hfits h.1
    have hsize : logPathSize = 2048 := rfl
    have hlength : b.length = logPathSize - 1 := by
      rw [hb, List.length_take]
      omega
    have hhead : b.head? = (cstr name).head? := by
      rw [hb, List.head?_take, if_neg (by decide)]
    have htext := logPath_text hpath
    have hpos := cwd.length_pos
    have hdir : (if daemon then [slash] else cwd.path).length ≤ cwd.path.length := by
      cases daemon with
      | true => exact hpos
      | false => exact le_rfl
    have hlengths := congrArg List.length heq
    by_cases habsolute : (cstr name).head? = some slash
    · rw [resolve_absolute habsolute, resolve_absolute (by rw [htext, hhead, habsolute]), htext,
        hlength] at hlengths
      omega
    · have hrelative : (cstr b).head? ≠ some slash := by
        rw [htext, hhead]
        exact habsolute
      rw [resolve_relative habsolute, resolve_relative hrelative, htext, List.length_append,
        List.length_append, List.length_cons, List.length_cons, hlength] at hlengths
      omega

/-- A name that is taken in the working directory. -/
theorem resolve_joined_iff
    (h : ¬((cstr name).head? = some slash ∨ (cstr name).head? = some backslash))
    (hpath : logPath cwd (some name) = .ok b) (dir : Bytes) :
    resolve dir b = resolve cwd.path name ↔
      2 * cwd.path.length < logPathSize ∧
        cwd.path.length + 1 + (cstr name).length < logPathSize := by
  have hb := logPath_joined h hpath
  have htext := logPath_text hpath
  have hsize : logPathSize = 2048 := rfl
  rw [resolve_relative (not_or.mp h).1]
  split at hb
  · rename_i hhalf
    have hhead : (cstr b).head? = some slash := by
      rw [htext, hb]
      exact head?_append_path cwd _
    rw [resolve_absolute hhead, htext, hb, List.append_right_inj, List.cons_inj_right,
      List.take_eq_self_iff, and_iff_right hhalf]
    omega
  · rename_i hhalf
    refine iff_of_false (fun heq => ?_) fun h => hhalf h.1
    have hhead : (cstr b).head? = some slash := by
      rw [htext, hb]
      exact head?_append_path cwd _
    rw [resolve_absolute hhead, htext, hb, List.append_right_inj] at heq
    have hlengths := congrArg List.length heq
    rw [List.length_take, List.length_cons] at hlengths
    omega

theorem resolve_log_iff (hpath : logPath cwd (some name) = .ok b) :
    resolve (if daemon then [slash] else cwd.path) b = resolve cwd.path name ↔
      LogFits cwd daemon name := by
  by_cases h : (cstr name).head? = some slash ∨ (cstr name).head? = some backslash
  · rw [LogFits, if_pos h]
    exact resolve_kept_iff h hpath
  · rw [LogFits, if_neg h]
    exact resolve_joined_iff h hpath _

theorem logPath_ne_nil (hpath : logPath cwd (some name) = .ok b) : b ≠ [] := by
  intro hb
  subst hb
  by_cases h : (cstr name).head? = some slash ∨ (cstr name).head? = some backslash
  · have hkept := congrArg List.head? (logPath_kept h hpath)
    rw [List.head?_take, if_neg (by decide)] at hkept
    rcases h with h | h <;> cases hkept.trans h
  · have hpos := cwd.length_pos
    have hjoined := congrArg List.length (logPath_joined h hpath)
    split at hjoined
    all_goals
      rw [List.length_append, List.length_nil] at hjoined
      omega

end Names

/-- In every start the configuration is read from the path that its name stands for. Each of the
other names stands for another path than it was given for exactly if it is relative and the daemon
has left the working directory; the log also if its path does not fit. -/
theorem atxsysOpened_iff {c : AtxsysConfig} {cwd : WorkingDir} {io : DaemonIo} {o : Opened}
    (h : atxsysOpened c cwd io = .ok o) :
    o.usr = c.usr.map (resolve cwd.path) ∧
      (o.networkConfig = o.usr ↔ ∀ usr ∈ c.usr, Anchored cwd c.daemon usr) ∧
      (o.env = resolve cwd.path (c.env.getD envConfigFile) ↔
        Anchored cwd c.daemon (c.env.getD envConfigFile)) ∧
      (o.www = c.www.map (resolve cwd.path) ↔ ∀ www ∈ c.www, Anchored cwd c.daemon www) ∧
      (o.log = c.log.map (resolve cwd.path) ↔ ∀ log ∈ c.log, LogFits cwd c.daemon log) := by
  obtain ⟨b, hpath, h⟩ := run_bind_eq_ok h
  obtain ⟨dir, hdir, h⟩ := run_bind_eq_ok h
  rw [← Except.ok.inj h, daemonDir_eq_ok hdir]
  refine ⟨rfl, map_resolve_iff c.usr, resolve_daemon_iff, map_resolve_iff c.www, ?_⟩
  cases hlog : c.log with
  | none =>
      rw [hlog] at hpath
      rw [if_pos (Except.ok.inj hpath).symm]
      simp
  | some log =>
      rw [hlog] at hpath
      rw [if_neg (logPath_ne_nil hpath)]
      simp [resolve_log_iff hpath]

/-- A daemon started in `/root` with names of this directory. -/
def detached : AtxsysConfig where
  log := some (bytes "atx.log")
  env := some envConfigFile
  usr := some (bytes "atx.json")
  port := some httpPort
  www := none
  daemon := true

def rootDir : WorkingDir where
  path := bytes "/root"
  habsolute := rfl
  htext := by decide

theorem atxsysOpened_iff_detached :
    ∃ o, atxsysOpened detached rootDir ⟨0, 7, 0⟩ = .ok o ∧
      o.usr = some (bytes "/root/atx.json") ∧ o.networkConfig ≠ o.usr ∧
      o.log = some (bytes "/root/atx.log") := by
  have hopened : atxsysOpened detached rootDir ⟨0, 7, 0⟩ = .ok
      { usr := some (bytes "/root/atx.json"), log := some (bytes "/root/atx.log")
        env := envConfigFile, networkConfig := some (bytes "//atx.json"), www := none } := rfl
  obtain ⟨husr, hconfig, -, -, hlog⟩ := atxsysOpened_iff hopened
  refine ⟨_, hopened, husr.trans rfl, ?_, ?_⟩
  · rw [Ne, hconfig]
    intro h
    have hanchored : ¬Anchored rootDir true (bytes "atx.json") := by
      unfold Anchored
      decide
    exact hanchored (h _ rfl)
  · have hfits : LogFits rootDir true (bytes "atx.log") := by
      unfold LogFits
      rw [if_neg (by decide)]
      decide
    rw [hlog.mpr]
    · rfl
    · intro log hmem
      rw [← Option.some.inj hmem]
      exact hfits

end AtxSys

/-
# Whole runs of the program

What a command prints about an expression that was analysed never fails, except that there is no
Karnaugh map of a single variable.  So the turns of the slices can be described without the
program: a turn is a command with the source of the last expression command up to it, its text is
computed from these two alone, and there are four reasons for it to end the run (`Turn.Stops`).

The parser of the arguments is any.  All that is used of it is that it reads options from them.

* `Command.exists_report`, `Command.report_kmap`: the texts about an analysed expression;
* `Command.isOf_run`: one command prints the text of its turn, and fails exactly when the turn
  ends the run;
* `Session.runs_runFrom`: slices one after the other, by induction;
* `Session.run_turns`: whole runs.
-/
import TwoLevel.Proofs.Outcome
import TwoLevel.Session

namespace TwoLevel

/-! ## 1. Texts about an analysed expression -/

namespace Analysis

variable {source : String} {a : Analysis}

theorem width_of_mem_primes (h : parse source = .ok a) {form : NormalForm} {i : Implicant}
    (hi : i ∈ a.primes form) : i.pattern.width = a.vars.size :=
  ((Minimization.arePrimes ((of_parse h).2.2 form)).of_mem hi).1

theorem exists_primeTexts (h : parse source = .ok a) (form : NormalForm) :
    ∃ texts, a.primeTexts form = .ok texts :=
  exists_collect fun _ hi => Implicant.exists_render_iff.mpr (width_of_mem_primes h hi)

theorem exists_coverageTable (h : parse source = .ok a) (form : NormalForm) :
    ∃ table, a.coverageTable form = .ok table :=
  CoverageTable.exists_ofImplicants fun _ hi => width_of_mem_primes h hi

/-- There is a variable, and not more than five. -/
theorem size_vars_of_parse (h : parse source = .ok a) : 1 ≤ a.vars.size ∧ a.vars.size ≤ 5 := by
  refine ⟨Nat.one_le_iff_ne_zero.mpr fun hzero => ?_, a.table.size_le⟩
  have hnil : a.expression.vars.isEmpty = true := by
    rw [← vars_of_parse h]
    exact List.isEmpty_iff.mpr (List.eq_nil_of_length_eq_zero hzero)
  rw [parse_of_isEmpty (of_parse h).1 hnil] at h
  cases h

/-- There is a map unless there is a single variable. -/
theorem exists_karnaughMap (h : parse source = .ok a) (hsize : a.vars.size ≠ 1)
    (form : NormalForm) : ∃ map, a.karnaughMap form = .ok map := by
  have hrange : 2 ≤ a.vars.size ∧ a.vars.size ≤ 5 := by
    have := size_vars_of_parse h
    omega
  have hlen : a.table.values.length = a.vars.rowCount := a.table.length_values
  exact ⟨_, by rw [karnaughMap, KarnaughMap.ofValues, dif_pos hrange, dif_pos hlen]⟩

theorem karnaughMap_of_single (hsize : a.vars.size = 1) (form : NormalForm) :
    a.karnaughMap form = .error (.unsupportedMapSize 1) := by
  have hrange : ¬ (2 ≤ a.vars.size ∧ a.vars.size ≤ 5) := by omega
  rw [karnaughMap, KarnaughMap.ofValues, dif_neg hrange, hsize]

end Analysis

namespace Command

/-- The text of a command about an analysed expression. -/
def report (c : Command) (a : Analysis) : Except Error String :=
  match c with
  | .help => .ok Report.help
  | .expr _ => .ok (Report.expression a)
  | .table => .ok (Report.table a)
  | .forms => .ok (Report.canonicalForms a)
  | .primes fs patterns => Report.primes a fs patterns
  | .minimize fs coverage => Report.minimized a fs coverage
  | .kmap fs => Report.maps a fs

variable {source : String} {a : Analysis}

/-- **The text of a command about an analysed expression exists**, unless it is the map of a
single variable. -/
theorem exists_report (h : Analysis.parse source = .ok a) {c : Command}
    (hc : a.vars.size ≠ 1 ∨ ∀ fs, c ≠ .kmap fs) : ∃ text, c.report a = .ok text := by
  have hmap : ∀ {β : Type} {r : Except Error β} {f : β → String},
      (∃ x, r = .ok x) → ∃ text, r.map f = .ok text := by
    rintro β r f ⟨x, rfl⟩
    exact ⟨f x, rfl⟩
  cases c with
  | help | expr _ | table | forms => exact ⟨_, rfl⟩
  | primes fs patterns =>
    refine hmap (exists_collect fun form _ => ?_)
    obtain ⟨texts, htexts⟩ := Analysis.exists_primeTexts h form
    exact ⟨_, by rw [Report.primesOf, htexts]; rfl⟩
  | minimize fs coverage =>
    refine hmap (exists_collect fun form _ => ?_)
    obtain ⟨table, htable⟩ := Analysis.exists_coverageTable h form
    cases coverage with
    | false => exact ⟨_, rfl⟩
    | true => exact ⟨_, by rw [Report.minimizedOf, htable]; rfl⟩
  | kmap fs =>
    have hsize : a.vars.size ≠ 1 := hc.resolve_right fun hno => hno fs rfl
    refine hmap (exists_collect fun form _ => ?_)
    obtain ⟨map, hkmap⟩ := Analysis.exists_karnaughMap h hsize form
    exact ⟨_, by rw [Report.mapOf, hkmap]; rfl⟩

/-- There is no map of a single variable. -/
theorem report_kmap (hsize : a.vars.size = 1) {fs : List NormalForm} (hfs : fs ≠ []) :
    (Command.kmap fs).report a = .error (.unsupportedMapSize 1) := by
  obtain ⟨form, rest, rfl⟩ := List.exists_cons_of_ne_nil hfs
  rw [report, Report.maps, collect, Report.mapOf, Analysis.karnaughMap_of_single hsize]
  rfl

end Command

/-! ## 2. Turns -/

namespace Command

/-- The source that an expression command gives, its own line of the input if it has no value. -/
def source? (input : Input) : Command → Option (Except Error String)
  | .expr (some text) => some (.ok (Text.trim text))
  | .expr none => some ((decodeLine (takeLine input).1).map Text.trim)
  | _ => none

/-- The input that a command leaves. -/
def inputAfter (input : Input) (c : Command) : Input :=
  if c.readsLine then (takeLine input).2 else input

/-- Whether a command is about the current expression. -/
def needsExpression : Command → Bool
  | .help | .expr _ => false
  | _ => true

end Command

/-- A command when its turn comes, and the source of the last expression command up to it, itself
included. -/
structure Turn where
  command : Command
  source : Option (Except Error String)

/-- The turns of some commands, after a source and with the input that is left. -/
def turns (latest : Option (Except Error String)) (input : Input) : List Command → List Turn
  | [] => []
  | c :: cs =>
    let source := (c.source? input).or latest
    ⟨c, source⟩ :: turns source (c.inputAfter input) cs

example : (turns none [98, 10] [.table, .expr none, .forms, .expr (some " a "), .table]).map
    Turn.source = [none, some (.ok "b"), some (.ok "b"), some (.ok "a"), some (.ok "a")] := by rfl

namespace Turn

/-- What a turn prints after its prompt: the text of its command about its source, if both can be
made. -/
def body (t : Turn) : String :=
  if t.command = .help then Report.help
  else
    match t.source with
    | some (.ok source) => ((Analysis.parse source).bind t.command.report).toOption.getD ""
    | _ => ""

/-- **The text of a turn**, which is computed from its command and its source. -/
def text (t : Turn) : String :=
  (if t.command.readsLine then Report.prompt else "") ++ t.body

/-- Why a turn ends the run. -/
inductive Stops (t : Turn) : Error → Prop where
  /-- The line that it reads is not well-formed. -/
  | unreadable (hc : t.command = .expr none) (h : t.source = some (.error .unreadableLine)) :
    t.Stops .unreadableLine
  /-- Its source is not analysed. -/
  | rejected {value : Option String} {source : String} {e : Error} (hc : t.command = .expr value)
    (h : t.source = some (.ok source)) (he : Analysis.parse source = .error e) : t.Stops e
  /-- There was no expression command. -/
  | missing (hc : t.command.needsExpression = true) (h : t.source = none) :
    t.Stops .missingExpression
  /-- The current expression has a single variable, and its map is wanted. -/
  | singleVariable {fs : List NormalForm} {source : String} {a : Analysis}
    (hc : t.command = .kmap fs) (h : t.source = some (.ok source))
    (ha : Analysis.parse source = .ok a) (hsize : a.vars.size = 1) :
    t.Stops (.unsupportedMapSize 1)

variable {c : Command} {source text : String} {a : Analysis} {e : Error}

theorem body_of_report (hc : c ≠ .help) (ha : Analysis.parse source = .ok a)
    (hr : c.report a = .ok text) : (⟨c, some (.ok source)⟩ : Turn).body = text := by
  simp [body, hc, ha, hr, Except.bind, Except.toOption]

theorem body_of_report_error (hc : c ≠ .help) (ha : Analysis.parse source = .ok a)
    (hr : c.report a = .error e) : (⟨c, some (.ok source)⟩ : Turn).body = "" := by
  simp [body, hc, ha, hr, Except.bind, Except.toOption]

theorem body_of_parse_error (hc : c ≠ .help) (he : Analysis.parse source = .error e) :
    (⟨c, some (.ok source)⟩ : Turn).body = "" := by
  simp [body, hc, he, Except.bind, Except.toOption]

end Turn

/-! ## 3. One command -/

/-- The current expression of a session is that of a source, if there was one. -/
inductive Session.Follows : Session → Option (Except Error String) → Prop where
  | fresh (input : Input) : Follows ⟨none, input⟩ none
  | analysed {source : String} {a : Analysis} (h : Analysis.parse source = .ok a)
    (input : Input) : Follows ⟨some a, input⟩ (some (.ok source))

/-- An outcome is that of a turn, with some input left: it has the text of the turn, and fails when
the turn ends the run.  Otherwise the next session follows the source of the turn. -/
inductive Outcome.IsOf (o : Outcome) (t : Turn) (input : Input) : Prop where
  | stopped {e : Error} (hprinted : o.printed = t.body) (h : t.Stops e)
    (hresult : o.result = .error (.error e))
  | passed {next : Session} (hprinted : o.printed = t.body) (h : ∀ e, ¬ t.Stops e)
    (hresult : o.result = .ok next) (hnext : next.Follows t.source) (hinput : next.input = input)

namespace Command

variable {s : Session} {latest : Option (Except Error String)} {c : Command} {text : String}
  {a : Analysis} {e : Error}

theorem analyse_of_parse (h : Analysis.parse (Text.trim text) = .ok a) :
    ∃ log, analyse s text = ⟨Report.expression a, log, .ok { s with current := some a }⟩ :=
  ⟨_, by simp only [analyse, h]; rfl⟩

theorem analyse_of_parse_error (h : Analysis.parse (Text.trim text) = .error e) :
    ∃ log, analyse s text = ⟨"", log, .error (.error e)⟩ :=
  ⟨_, by simp only [analyse, h]; rfl⟩

/-- There is one reason for a line not to be read. -/
theorem eq_unreadableLine {bytes : Input} (h : decodeLine bytes = .error e) :
    e = .unreadableLine := by
  unfold decodeLine at h
  split at h
  · cases h
  · exact (Except.error.inj h).symm

theorem run_of_line (h : decodeLine (takeLine s.input).1 = .ok text) :
    (Command.expr none).run s = analyse { s with input := (takeLine s.input).2 } text := by
  simp only [run, h]

theorem run_of_unreadable (h : decodeLine (takeLine s.input).1 = .error e) :
    (Command.expr none).run s = ⟨"", [], .error (.error e)⟩ := by
  simp only [run, h]

/-- An expression command whose source is a text. -/
theorem isOf_analyse (s : Session) (value : Option String) (text : String) :
    (analyse s text).IsOf ⟨.expr value, some (.ok (Text.trim text))⟩ s.input := by
  have hhelp : Command.expr value ≠ .help := by simp
  cases hparse : Analysis.parse (Text.trim text) with
  | error e =>
    obtain ⟨log, hanalyse⟩ := analyse_of_parse_error (s := s) hparse
    rw [hanalyse]
    exact .stopped (Turn.body_of_parse_error hhelp hparse).symm (.rejected rfl rfl hparse) rfl
  | ok a =>
    obtain ⟨log, hanalyse⟩ := analyse_of_parse (s := s) hparse
    have hbody : Report.expression a = Turn.body ⟨.expr value, some (.ok (Text.trim text))⟩ :=
      (Turn.body_of_report hhelp hparse rfl).symm
    rw [hanalyse]
    refine .passed hbody ?_ rfl (.analysed hparse s.input) rfl
    rintro e (⟨-, h⟩ | ⟨-, h, he⟩ | ⟨hc, -⟩ | ⟨hc, -, -, -⟩)
    · cases h
    · cases h
      cases hparse.symm.trans he
    · cases hc
    · cases hc

theorem display_of_report {report : Analysis → Except Error String} (hs : s.current = some a)
    (h : report a = .ok text) : display s report = ⟨text, [], .ok s⟩ := by
  simp only [display, hs, h]

theorem display_of_report_error {report : Analysis → Except Error String}
    (hs : s.current = some a) (h : report a = .error e) :
    display s report = ⟨"", [], .error (.error e)⟩ := by
  simp only [display, hs, h]

/-- A command about the current expression. -/
theorem isOf_display (hs : s.Follows latest) (hc : c.needsExpression = true)
    (hforms : ∀ fs, c = .kmap fs → fs ≠ []) :
    (display s c.report).IsOf ⟨c, latest⟩ s.input := by
  have hhelp : c ≠ .help := by
    rintro rfl
    cases hc
  have hexpr : ∀ value, c ≠ .expr value := by
    rintro value rfl
    cases hc
  cases hs with
  | fresh input =>
    refine .stopped ?_ (.missing hc rfl) rfl
    simp [Turn.body, hhelp, display]
  | @analysed source a ha input =>
    by_cases hsingle : a.vars.size = 1 ∧ ∃ fs, c = .kmap fs
    · obtain ⟨hsize, fs, rfl⟩ := hsingle
      have hreport := report_kmap hsize (hforms fs rfl)
      rw [display_of_report_error rfl hreport]
      exact .stopped (Turn.body_of_report_error hhelp ha hreport).symm
        (.singleVariable rfl rfl ha hsize) rfl
    · have hmap : a.vars.size ≠ 1 ∨ ∀ fs, c ≠ .kmap fs := by
        by_cases hsize : a.vars.size = 1
        · exact .inr fun fs hfs => hsingle ⟨hsize, fs, hfs⟩
        · exact .inl hsize
      obtain ⟨text, htext⟩ := exists_report ha hmap
      rw [display_of_report rfl htext]
      refine .passed (Turn.body_of_report hhelp ha htext).symm ?_ rfl (.analysed ha input) rfl
      rintro e (⟨hc, -⟩ | ⟨hc, -, -⟩ | ⟨-, h⟩ | ⟨hc, h, hb, hsize⟩)
      · exact hexpr _ hc
      · exact hexpr _ hc
      · cases h
      · cases h
        cases ha.symm.trans hb
        exact hsingle ⟨hsize, _, hc⟩

/-- **One command is its turn.** -/
theorem isOf_run (hs : s.Follows latest) (hforms : ∀ fs, c = .kmap fs → fs ≠ []) :
    (c.run s).IsOf ⟨c, (c.source? s.input).or latest⟩ (c.inputAfter s.input) := by
  cases c with
  | help =>
    refine .passed rfl ?_ rfl hs rfl
    rintro e (⟨hc, -⟩ | ⟨hc, -, -⟩ | ⟨hc, -⟩ | ⟨hc, -, -, -⟩) <;> cases hc
  | expr value =>
    cases value with
    | some text => exact isOf_analyse s (some text) text
    | none =>
      rw [source?]
      cases hline : decodeLine (takeLine s.input).1 with
      | error e =>
        rw [run_of_unreadable hline]
        obtain rfl := eq_unreadableLine hline
        refine .stopped ?_ (.unreadable rfl rfl) rfl
        simp [Turn.body, Except.map]
      | ok text =>
        rw [run_of_line hline]
        exact isOf_analyse { s with input := (takeLine s.input).2 } none text
  | table | forms | primes fs patterns | minimize fs coverage | kmap fs =>
    exact isOf_display hs rfl hforms

/-- The commands of slices always show a form, whatever the parser. -/
theorem forms_ne_nil {parse : Parser} {slice : Slice} {c : Command}
    (h : ofSlice? parse slice = some c) : ∀ fs, c = .kmap fs → fs ≠ [] := by
  obtain ⟨o, -, rfl⟩ := ofSlice?_eq_some_iff.mp h
  intro fs hfs
  unfold ofOptions at hfs
  split at hfs <;> cases hfs
  exact o.forms_ne_nil

end Command

/-! ## 4. Runs -/

/-- Some turns are run with this text and this failure: those before the first that ends the run,
and this one. -/
inductive Runs : List Turn → String → Option Failure → Prop where
  | done : Runs [] "" none
  | stop {t : Turn} {e : Error} (h : t.Stops e) (ts : List Turn) :
    Runs (t :: ts) t.text (some (.error e))
  | next {t : Turn} {ts : List Turn} {printed : String} {failure : Option Failure}
    (h : ∀ e, ¬ t.Stops e) (hts : Runs ts printed failure) :
    Runs (t :: ts) (t.text ++ printed) failure

/-- **Turns are run up to the first that ends the run.** -/
theorem Runs.exists_executed {ts : List Turn} {printed : String} {failure : Option Failure}
    (h : Runs ts printed failure) :
    ∃ executed rest, ts = executed ++ rest ∧ printed = String.join (executed.map Turn.text) ∧
      ((rest = [] ∧ failure = none ∧ ∀ t ∈ executed, ∀ e, ¬ t.Stops e) ∨
        ∃ before t e, executed = before ++ [t] ∧ failure = some (.error e) ∧ t.Stops e ∧
          ∀ u ∈ before, ∀ e, ¬ u.Stops e) := by
  induction h with
  | done => exact ⟨[], [], rfl, rfl, .inl ⟨rfl, rfl, by simp⟩⟩
  | @stop t e h ts =>
    refine ⟨[t], ts, rfl, ?_, .inr ⟨[], t, e, rfl, rfl, h, by simp⟩⟩
    simp
  | @next t ts printed failure h _ ih =>
    obtain ⟨executed, rest, rfl, rfl, hend⟩ := ih
    refine ⟨t :: executed, rest, rfl, ?_, ?_⟩
    · simp
    · rcases hend with ⟨hrest, hfailure, hnone⟩ | ⟨before, u, e, rfl, hfailure, hstops, hbefore⟩
      · exact .inl ⟨hrest, hfailure, List.forall_mem_cons.mpr ⟨h, hnone⟩⟩
      · exact .inr ⟨t :: before, u, e, rfl, hfailure, hstops,
          List.forall_mem_cons.mpr ⟨h, hbefore⟩⟩

namespace Session

variable {parse : Parser}

/-- **Slices are run as their turns.**  By induction on the slices: what one command leaves to the
next follows the source of its turn. -/
theorem runs_runFrom {args : List String} {slices : List Slice} {commands : List Command}
    (hsplit : Slice.split args = ([], slices))
    (hcommands : slices.map (Command.ofSlice? parse) = commands.map some) {s : Session}
    {latest : Option (Except Error String)} (hs : s.Follows latest) :
    Runs (turns latest s.input commands) (s.runFrom parse args).printed
      (s.runFrom parse args).failure := by
  induction slices generalizing args commands s latest with
  | nil =>
    obtain rfl : commands = [] := by simpa using hcommands.symm
    obtain rfl := Slice.eq_nil_of_split hsplit
    rw [runFrom_nil]
    exact .done
  | cons slice slices ih =>
    cases commands with
    | nil => cases hcommands
    | cons c commands =>
      obtain ⟨hc, hrest⟩ := List.cons.inj hcommands
      obtain ⟨left, hnext, hleft⟩ := Slice.next?_of_split hsplit
      have hprompt : slice.prompt parse = if c.readsLine then Report.prompt else "" := by
        rw [Slice.prompt, Slice.readsLine, hc]
        rfl
      have hrun : s.runSlice parse slice = c.run s := runSlice_of_command hc
      rw [turns]
      rcases Command.isOf_run hs (Command.forms_ne_nil hc) with
        ⟨hprinted, hstops, hresult⟩ | ⟨hprinted, hnone, hresult, hfollows, hinput⟩
      · rw [runFrom_of_error hnext (hrun ▸ hresult), hrun, hprompt, hprinted]
        exact .stop hstops _
      · rw [runFrom_of_ok hnext (hrun ▸ hresult), hrun, hprompt, hprinted]
        have hts := ih hleft hrest hfollows
        rw [hinput] at hts
        exact .next hnone hts

/-- Where the first argument is a word for a command, or there is none, the slices of the run are
all that it works through. -/
theorem split_given {args : List String} (h : (Slice.split args).1 = []) :
    Slice.split (Slice.given args) = ([], Slice.ofArguments args) := by
  cases args with
  | nil => rfl
  | cons word words => exact Prod.ext h rfl

/-- **Whole runs.**  The parser is any that reads options from the arguments of all slices of the
run, which gives the commands.  A first argument that is no word for a command ends the run before
anything is printed.  Otherwise the turns of the commands are run in order up to the first that ends
the run, with its error; what is printed are the texts of these turns, one after the other. -/
theorem run_turns {args : List String} {commands : List Command}
    (hcommands : (Slice.ofArguments args).map (Command.ofSlice? parse) = commands.map some)
    (input : Input) :
    (∀ word lead, (Slice.split args).1 = word :: lead →
      (runWith parse args input).printed = "" ∧
        (runWith parse args input).failure = some (.error (.unknownCommand word)) ∧
        (runWith parse args input).status = 1) ∧
    ((Slice.split args).1 = [] →
      ∃ executed rest, turns none input commands = executed ++ rest ∧
        (runWith parse args input).printed = String.join (executed.map Turn.text) ∧
        ((rest = [] ∧ (runWith parse args input).failure = none ∧
            (runWith parse args input).status = 0 ∧ ∀ t ∈ executed, ∀ e, ¬ t.Stops e) ∨
          ∃ before t e, executed = before ++ [t] ∧
            (runWith parse args input).failure = some (.error e) ∧
            (runWith parse args input).status = 1 ∧ t.Stops e ∧
            ∀ u ∈ before, ∀ e, ¬ u.Stops e)) := by
  constructor
  · intro word lead hlead
    obtain ⟨hhead, hnext⟩ := Slice.of_split_fst hlead
    have hgiven : Slice.given args = args := Slice.given_of_ne_nil fun hnil => by
      rw [hnil] at hhead
      cases hhead
    rw [runWith, hgiven, runFrom_of_none hnext, hhead]
    exact ⟨rfl, rfl, rfl⟩
  · intro hlead
    have hruns := runs_runFrom (split_given hlead) hcommands (Follows.fresh input)
    obtain ⟨executed, rest, hturns, hprinted, hend⟩ := hruns.exists_executed
    refine ⟨executed, rest, hturns, hprinted, ?_⟩
    rcases hend with ⟨hrest, hnone, hstops⟩ | ⟨before, t, e, hexecuted, hsome, hstops, hbefore⟩
    · have hok : (runWith parse args input).failure = none := hnone
      exact .inl ⟨hrest, hok, by rw [Transcript.status, hok]; rfl, hstops⟩
    · have herror : (runWith parse args input).failure = some (.error e) := hsome
      exact .inr ⟨before, t, e, hexecuted, herror, by rw [Transcript.status, herror]; rfl, hstops,
        hbefore⟩

/-- A run that reads a line, shows a table, goes on to another expression and ends because there
is no map of a single variable. -/
theorem run_turns_of_single_variable :
    let args := ["expr", "tt", "expr", "a", "kmap"]
    let input : Input := [97, 32, 124, 32, 98, 10]
    let commands : List Command := [.expr none, .table, .expr (some "a"), .kmap [.sop, .pos]]
    (Slice.ofArguments args).map (Command.ofSlice? Options.parse) = commands.map some ∧
      (runWith Options.parse args input).failure = some (.error (.unsupportedMapSize 1)) ∧
      ∃ before t rest, turns none input commands = before ++ t :: rest ∧
        (runWith Options.parse args input).printed = String.join ((before ++ [t]).map Turn.text) ∧
        t.Stops (.unsupportedMapSize 1) := by
  intro args input commands
  have hcommands : (Slice.ofArguments args).map (Command.ofSlice? Options.parse)
      = commands.map some := by decide
  -- the steps of the run, each from the session that the one before leaves
  obtain ⟨a, ha⟩ : ∃ a, (runSlice Options.parse (start input) ⟨.expr, "expr", []⟩).result
      = .ok ⟨some a, []⟩ := ⟨_, rfl⟩
  have htable : (runSlice Options.parse ⟨some a, []⟩ ⟨.table, "tt", []⟩).result
      = .ok ⟨some a, []⟩ := rfl
  obtain ⟨b, hb, hsize⟩ : ∃ b, (runSlice Options.parse ⟨some a, []⟩ ⟨.expr, "expr", ["a"]⟩).result
      = .ok ⟨some b, []⟩ ∧ b.vars.size = 1 := ⟨_, rfl, rfl⟩
  have hmap : (runSlice Options.parse ⟨some b, []⟩ ⟨.kmap, "kmap", []⟩).result
      = .error (.error (.unsupportedMapSize 1)) := by
    have hreport := Command.report_kmap hsize (Options.forms_ne_nil ⟨[], []⟩)
    exact congrArg Outcome.result (Command.display_of_report_error rfl hreport)
  have hfailure : (runWith Options.parse args input).failure
      = some (.error (.unsupportedMapSize 1)) := by
    rw [runWith, Slice.given_of_ne_nil (by decide), runFrom_of_ok rfl ha, runFrom_of_ok rfl htable,
      runFrom_of_ok rfl hb, runFrom_of_error rfl hmap]
    rfl
  obtain ⟨executed, rest, hturns, hprinted, hend⟩ := (run_turns hcommands input).2 (by decide)
  refine ⟨hcommands, hfailure, ?_⟩
  rcases hend with ⟨-, hnone, -, -⟩ | ⟨before, t, e, rfl, herror, -, hstops, -⟩
  · cases hfailure.symm.trans hnone
  · cases hfailure.symm.trans herror
    exact ⟨before, t, rest, by simpa using hturns, hprinted, hstops⟩

end Session

end TwoLevel

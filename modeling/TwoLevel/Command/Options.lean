/-
# The arguments of one command

A run of the program takes any parser for the arguments of its commands (`Parser`): something that
reads the options of a slice, refuses its arguments, or shows a text in place of the command.

The parser of this library is `Options.parse`.  For it an argument that starts with a dash is a
switch, or several as letters after one dash; the others are values.  Two dashes alone end the
switches: what follows them are values.  A command refuses a switch that it does not know, a switch
given twice and more values than it takes.
-/
import TwoLevel.Command.Slice
import TwoLevel.NormalForm

namespace TwoLevel

/-! ## 1. Options -/

/-- The switches and the values among arguments. -/
structure Options where
  switches : List Switch
  values : List String
  deriving DecidableEq, Repr

/-- The forms to show: both, unless exactly one of them is switched on. -/
def Options.forms (o : Options) : List NormalForm :=
  match o.switches.contains .sop, o.switches.contains .pos with
  | true, false => [.sop]
  | false, true => [.pos]
  | _, _ => NormalForm.all

/-- There always is a form to show. -/
theorem Options.forms_ne_nil (o : Options) : o.forms ≠ [] := by
  unfold forms
  split <;> simp [NormalForm.all]

/-- What a parser makes of the arguments of a slice. -/
inductive Parsed where
  | options (o : Options)
  /-- The arguments are refused. -/
  | refused
  /-- The arguments ask for a text about the command, which is shown in its place. -/
  | answered (text : String)
  deriving DecidableEq, Repr

/-- A parser for the arguments of slices. -/
abbrev Parser := Slice → Parsed

/-! ## 2. Arguments by their form -/

/-- An argument before it is known which switches there are. -/
inductive Argument where
  /-- Two dashes alone. -/
  | endOfSwitches
  /-- The word of a switch. -/
  | long (word : String)
  /-- The letters of switches. -/
  | short (letters : List Char)
  | value (text : String)
  deriving DecidableEq, Repr

/-- The form of an argument.  The word of a switch follows all leading dashes and ends before an
equals sign; a dash alone is a value. -/
def Argument.ofWord (w : String) : Argument :=
  match w.toList with
  | ['-'] => .value w
  | ['-', '-'] => .endOfSwitches
  | '-' :: '-' :: cs => .long (String.ofList ((cs.dropWhile (· = '-')).takeWhile (· ≠ '=')))
  | '-' :: cs => .short cs
  | _ => .value w

example : Argument.ofWord "---sop=x" = .long "sop" := by decide

example : Argument.ofWord "-cc" = .short ['c', 'c'] := by decide

example : Argument.ofWord "" = .value "" := by decide

/-! ## 3. Reading options -/

namespace Options

/-- The switches that letters stand for, if each stands for one. -/
def ofLetters? (known : List Switch) : List Char → Option (List Switch)
  | [] => some []
  | c :: cs =>
    match known.find? (·.short? = some c), ofLetters? known cs with
    | some s, some ss => some (s :: ss)
    | _, _ => none

/-- Some switches before the others. -/
def withSwitches (switches : List Switch) (o : Options) : Options :=
  { o with switches := switches ++ o.switches }

/-- The switches and the values of arguments, if each switch is known. -/
def read? (known : List Switch) : List String → Option Options
  | [] => some ⟨[], []⟩
  | w :: ws =>
    match Argument.ofWord w with
    | .endOfSwitches => some ⟨[], ws⟩
    | .long word =>
      match known.find? (·.long = word) with
      | some s => (read? known ws).map (withSwitches [s])
      | none => none
    | .short letters =>
      match ofLetters? known letters with
      | some ss => (read? known ws).map (withSwitches ss)
      | none => none
    | .value text => (read? known ws).map fun o => { o with values := text :: o.values }

/-- The options of a slice, if its command accepts them. -/
def ofSlice? (s : Slice) : Option Options :=
  (read? s.name.switches s.arguments).filter fun o =>
    o.switches.Nodup && o.values.length ≤ s.name.maxValues

/-- The parser of this library.  It knows no arguments that ask for a text. -/
def parse : Parser := fun s =>
  match ofSlice? s with
  | some o => .options o
  | none => .refused

end Options

/-! ## 4. Commands -/

/-- A command with its options. -/
inductive Command where
  | help
  /-- Analyse an expression; without a source it is read from the input. -/
  | expr (source : Option String)
  | table
  | forms
  | primes (forms : List NormalForm) (patterns : Bool)
  | minimize (forms : List NormalForm) (coverage : Bool)
  | kmap (forms : List NormalForm)
  deriving DecidableEq, Repr

namespace Command

/-- A command of some name with some options. -/
def ofOptions (n : CommandName) (o : Options) : Command :=
  match n with
  | .help => .help
  | .expr => .expr o.values.head?
  | .table => .table
  | .forms => .forms
  | .primes => .primes o.forms (o.switches.contains .patterns)
  | .minimize => .minimize o.forms (o.switches.contains .coverage)
  | .kmap => .kmap o.forms

/-- The command of a slice, if a parser reads options from its arguments. -/
def ofSlice? (parse : Parser) (s : Slice) : Option Command :=
  match parse s with
  | .options o => some (ofOptions s.name o)
  | .refused | .answered _ => none

theorem ofSlice?_eq_some_iff {parse : Parser} {s : Slice} {c : Command} :
    ofSlice? parse s = some c ↔ ∃ o, parse s = .options o ∧ c = ofOptions s.name o := by
  cases h : parse s <;> simp [ofSlice?, h, eq_comm]

example : ofSlice? Options.parse ⟨.minimize, "min", ["--sop", "-c"]⟩
    = some (.minimize [.sop] true) := by decide

example : ofSlice? Options.parse ⟨.minimize, "min", ["-cc"]⟩ = none := by decide

example : ofSlice? Options.parse ⟨.expr, "expr", ["--", "! a"]⟩ = some (.expr (some "! a")) := by
  decide

end Command
end TwoLevel

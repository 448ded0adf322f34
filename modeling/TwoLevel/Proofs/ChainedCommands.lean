/-
# Chained commands and their arguments

A run hands slices to their commands, each from the front of the arguments that are left
(`Slice.next?`), and goes on with the arguments behind the slice as long as the commands succeed
(`Session.HandsOut`).  The parser of the arguments is any: it may refuse them or show a text
instead, and then the run ends at this slice.

* `Session.HandsOut.flatMap_words`: what is handed out and what is left are all arguments;
* `Session.HandsOut.exists_runFrom_eq_after`: what is left is run as by a run that begins there;
* `Session.exists_handsOut`: how handing out ends;
* `Session.run_handsOut`: the run as a whole.
-/
import TwoLevel.Proofs.ProgramRun

namespace TwoLevel

/-! ## 1. Failures of one slice -/

namespace Analysis

/-- An analysis fails by a fault of the text or because it has no variable. -/
theorem eq_parse_of_parse_error {source : String} {e : Error} (h : parse source = .error e) :
    e = .missingExpression ∨ ∃ fault, e = .parse fault := by
  cases hconv : Postfix.ofInfix (Token.ofText source) with
  | error fault =>
    have hexpr : Expression.parse source = .error (.parse fault) := by
      rw [Expression.parse, hconv]
    exact .inr ⟨fault, Except.error.inj (h.symm.trans (parse_of_expression_error hexpr))⟩
  | ok out =>
    by_cases hvar : ∃ c, Token.var c ∈ Token.ofText source
    · rcases Ordered.outcome ⟨hconv, hvar⟩ with
        ⟨_, o, _, _, _, _, _, hfault⟩ | ⟨n, _, _, hfault⟩ | ⟨-, a, ha⟩
      · exact .inr ⟨_, Except.error.inj (h.symm.trans hfault)⟩
      · exact .inr ⟨_, Except.error.inj (h.symm.trans hfault)⟩
      · cases h.symm.trans ha
    · have he := Expression.parse_eq_ok_iff.mpr ⟨out, hconv, rfl⟩
      have hnil := (isEmpty_vars_iff he).mpr fun c hc => hvar ⟨c, hc⟩
      exact .inl (Except.error.inj (h.symm.trans (parse_of_isEmpty he hnil)))

end Analysis

/-- No turn ends the run for want of a command. -/
theorem Turn.Stops.ne_unknownCommand {t : Turn} {e : Error} (h : t.Stops e) (word : String) :
    e ≠ .unknownCommand word := by
  cases h with
  | unreadable | missing | singleVariable => exact Error.noConfusion
  | rejected _ _ he =>
    rcases Analysis.eq_parse_of_parse_error he with rfl | ⟨fault, rfl⟩
    · exact Error.noConfusion
    · exact Error.noConfusion

namespace Session

variable {parse : Parser} {s t u : Session} {args left rest : List String} {slice : Slice}
  {handed : List Slice} {latest : Option (Except Error String)}

/-- What a slice leads to: another session that follows some source, or a failure which is not that
a command is unknown. -/
theorem result_runSlice (parse : Parser) (hs : s.Follows latest) (slice : Slice) :
    (∃ next source, (s.runSlice parse slice).result = .ok next ∧ next.Follows source) ∨
      ∃ f, (s.runSlice parse slice).result = .error f ∧
        ∀ word, f ≠ .error (.unknownCommand word) := by
  cases hparse : parse slice with
  | refused => exact .inr ⟨.usage, by rw [runSlice, hparse], fun word => Failure.noConfusion⟩
  | answered text =>
    exact .inr ⟨.answered, by rw [runSlice, hparse], fun word => Failure.noConfusion⟩
  | options o =>
    have hc := Command.ofSlice?_eq_some_iff.mpr ⟨o, hparse, rfl⟩
    rw [runSlice_of_command hc]
    rcases Command.isOf_run hs (Command.forms_ne_nil hc) with
      ⟨-, hstops, hresult⟩ | ⟨-, -, hresult, hnext, -⟩
    · refine .inr ⟨_, hresult, fun word he => ?_⟩
      exact hstops.ne_unknownCommand word (Failure.error.inj he)
    · exact .inl ⟨_, _, hresult, hnext⟩

/-! ## 2. Handing out slices -/

/-- Slices are handed to their commands, each the slice in front of the arguments that are left;
all of the commands succeed, and another session goes on with the arguments behind the slices. -/
inductive HandsOut (parse : Parser) :
    Session → List String → List Slice → Session → List String → Prop where
  | nothing (s : Session) (args : List String) : HandsOut parse s args [] s args
  | next {s t u : Session} {args rest left : List String} {slice : Slice} {handed : List Slice}
    (hnext : Slice.next? args = some (slice, rest))
    (hresult : (s.runSlice parse slice).result = .ok u) (h : HandsOut parse u rest handed t left) :
    HandsOut parse s args (slice :: handed) t left

namespace HandsOut

/-- **What is handed out and what is left are all arguments**, in order. -/
theorem flatMap_words (h : HandsOut parse s args handed t left) :
    handed.flatMap Slice.words ++ left = args := by
  induction h with
  | nothing s args => rfl
  | next hnext _ _ ih =>
    rw [List.flatMap_cons, List.append_assoc, ih]
    exact Slice.words_next? hnext

/-- The slices that are handed out are those of the arguments. -/
theorem split_eq_append (h : HandsOut parse s args handed t left) :
    (Slice.split args).2 = handed ++ (Slice.split left).2 := by
  induction h with
  | nothing s args => rfl
  | next hnext _ _ ih => rw [Slice.split_of_next? hnext, ih, List.cons_append]

theorem isCut (h : HandsOut parse s args handed t left) : ∀ slice ∈ handed, slice.IsCut := by
  induction h with
  | nothing s args => simp
  | next hnext _ _ ih => exact List.forall_mem_cons.mpr ⟨Slice.isCut_of_next? hnext, ih⟩

/-- What is left is run as it would be by a run that begins there; what was printed and told before
stays in front. -/
theorem exists_runFrom_eq_after (h : HandsOut parse s args handed t left) :
    ∃ printed log, s.runFrom parse args = (t.runFrom parse left).after printed log := by
  induction h with
  | nothing s args => exact ⟨"", [], by simp [Transcript.after]⟩
  | @next s t u args rest left slice handed hnext hresult _ ih =>
    obtain ⟨printed, log, hrun⟩ := ih
    rw [runFrom_of_ok hnext hresult, hrun]
    exact ⟨slice.prompt parse ++ (s.runSlice parse slice).printed ++ printed,
      (s.runSlice parse slice).log ++ log,
      by simp only [Transcript.after, String.append_assoc, List.append_assoc]⟩

/-- Each slice takes at least one argument. -/
theorem length_add_length_le (h : HandsOut parse s args handed t left) :
    handed.length + left.length ≤ args.length := by
  induction h with
  | nothing s args => simp
  | next hnext _ _ ih =>
    have hlt := Slice.length_lt_of_next? hnext
    rw [List.length_cons]
    omega

/-- A word that stands for no command is in front only as long as nothing was handed out. -/
theorem eq_nil_of_ofWord? (h : HandsOut parse s args handed t left) {word : String}
    {words : List String} (hleft : left = word :: words)
    (hword : CommandName.ofWord? word = none) : handed = [] := by
  have hbehind : handed ≠ [] → CommandName.ofWord? word ≠ none := by
    clear hword
    induction h with
    | nothing s args => exact fun hne => absurd rfl hne
    | next hnext _ hrest ih =>
      intro _
      cases hrest with
      | nothing => exact Slice.ne_none_of_next? hnext hleft
      | next => exact ih hleft (List.cons_ne_nil _ _)
  exact Classical.byContradiction fun hne => hbehind hne hword

end HandsOut

/-- **How handing out ends**: nothing is left, or the word in front stands for no command, or the
run does not go on after the slice in front.  By induction on the number of arguments, which each
slice makes smaller. -/
theorem exists_handsOut (parse : Parser) (count : Nat) (hcount : args.length ≤ count)
    (hs : s.Follows latest) :
    ∃ handed t left, HandsOut parse s args handed t left ∧
      ((left = [] ∧ (s.runFrom parse args).failure = none) ∨
        (∃ word words, left = word :: words ∧ CommandName.ofWord? word = none ∧
          (s.runFrom parse args).failure = some (.error (.unknownCommand word))) ∨
        ∃ slice rest f, Slice.next? left = some (slice, rest) ∧
          (t.runSlice parse slice).result = .error f ∧ (s.runFrom parse args).failure = some f ∧
          ∀ word, f ≠ .error (.unknownCommand word)) := by
  induction count generalizing args s latest with
  | zero =>
    obtain rfl := List.eq_nil_of_length_eq_zero (Nat.le_zero.mp hcount)
    exact ⟨[], s, [], .nothing s [], .inl ⟨rfl, by rw [runFrom_nil]⟩⟩
  | succ count ih =>
    cases hnext : Slice.next? args with
    | none =>
      refine ⟨[], s, args, .nothing s args, ?_⟩
      rw [runFrom_of_none hnext]
      cases args with
      | nil => exact .inl ⟨rfl, rfl⟩
      | cons word words =>
        exact .inr (.inl ⟨word, words, rfl, Slice.next?_eq_none_iff.mp hnext word words rfl, rfl⟩)
    | some front =>
      obtain ⟨slice, rest⟩ := front
      rcases result_runSlice parse hs slice with ⟨u, source, hresult, hu⟩ | ⟨f, hresult, hf⟩
      · have hrest : rest.length ≤ count := by
          have hlt := Slice.length_lt_of_next? hnext
          omega
        obtain ⟨handed, t, left, hhands, hend⟩ := ih hrest hu
        rw [runFrom_of_ok hnext hresult]
        exact ⟨slice :: handed, t, left, .next hnext hresult hhands, hend⟩
      · rw [runFrom_of_error hnext hresult]
        exact ⟨[], s, args, .nothing s args, .inr (.inr ⟨slice, rest, f, hnext, hresult, rfl, hf⟩)⟩

/-! ## 3. Runs -/

/-- A run that is given arguments works through them. -/
theorem runWith_of_ne_nil (hargs : args ≠ []) (parse : Parser) (input : Input) :
    (runWith parse args input).printed = ((start input).runFrom parse args).printed ∧
      (runWith parse args input).failure = ((start input).runFrom parse args).failure := by
  rw [runWith, Slice.given_of_ne_nil hargs]
  exact ⟨rfl, rfl⟩

/-- The list of commands, which a run without arguments gives, is no unknown command. -/
theorem failure_runWith_nil_ne (parse : Parser) (input : Input) (word : String) :
    (runWith parse [] input).failure ≠ some (.error (.unknownCommand word)) := by
  have hnext : Slice.next? (Slice.given []) = some (⟨.help, "help", []⟩, []) := by decide
  intro hfailure
  rw [runWith] at hfailure
  rcases result_runSlice parse (Follows.fresh input) ⟨.help, "help", []⟩ with
    ⟨u, -, hresult, -⟩ | ⟨f, hresult, hf⟩
  · rw [start, runFrom_of_ok hnext hresult, runFrom_nil] at hfailure
    cases hfailure
  · rw [start, runFrom_of_error hnext hresult] at hfailure
    exact hf word (Option.some.inj hfailure)

/-- A run fails for want of a command exactly when the first of its arguments stands for none. -/
theorem failure_runWith_eq_unknownCommand_iff {input : Input} {word : String} :
    (runWith parse args input).failure = some (.error (.unknownCommand word)) ↔
      args.head? = some word ∧ CommandName.ofWord? word = none := by
  cases args with
  | nil =>
    refine ⟨fun h => absurd h (failure_runWith_nil_ne parse input word), ?_⟩
    rintro ⟨hhead, -⟩
    cases hhead
  | cons first words =>
    rw [(runWith_of_ne_nil (List.cons_ne_nil first words) parse input).2]
    constructor
    · intro hfailure
      obtain ⟨handed, s, left, hhands, hend⟩ := exists_handsOut parse _ (Nat.le_refl _)
        (Follows.fresh input)
      rcases hend with ⟨-, hnone⟩ | ⟨front, rest, hleft, hfront, hunknown⟩ |
        ⟨_, _, f, -, -, hf, hne⟩
      · cases hnone.symm.trans hfailure
      · -- nothing was handed out yet, so the word in front is the first argument
        have hargs := hhands.flatMap_words
        rw [hhands.eq_nil_of_ofWord? hleft hfront, hleft] at hargs
        obtain ⟨rfl, -⟩ := List.cons.inj hargs
        cases hunknown.symm.trans hfailure
        exact ⟨rfl, hfront⟩
      · exact absurd (Option.some.inj (hf.symm.trans hfailure)) (hne word)
    · rintro ⟨hhead, hword⟩
      obtain rfl : first = word := Option.some.inj hhead
      have hnext : Slice.next? (first :: words) = none := by rw [Slice.next?, hword]; rfl
      rw [runFrom_of_none hnext]
      rfl

/-- **Arguments are handed out without a gap**, whatever the parser.  At each moment of a run the
slices that were handed out and the arguments that are left are all arguments, each slice begins
with its only word for a command, and the next slice leaves fewer arguments.  The run ends after at
most as many commands as there are arguments, and only its first argument can turn out to stand for
no command. -/
theorem run_handsOut (parse : Parser) (args : List String) (input : Input) :
    (∀ handed s left, HandsOut parse (start input) args handed s left →
      handed.flatMap Slice.words ++ left = args ∧
      (∀ slice ∈ handed, slice.IsCut) ∧
      (Slice.split args).2 = handed ++ (Slice.split left).2 ∧
      (∃ printed log,
        (start input).runFrom parse args = (s.runFrom parse left).after printed log) ∧
      handed.length + left.length ≤ args.length ∧
      (∀ slice rest, Slice.next? left = some (slice, rest) → rest.length < left.length) ∧
      (∀ word words, left = word :: words → CommandName.ofWord? word = none → handed = [])) ∧
    (∃ handed s left, HandsOut parse (start input) args handed s left ∧
      ((left = [] ∧ ((start input).runFrom parse args).failure = none) ∨
        (∃ word words, left = word :: words ∧ CommandName.ofWord? word = none ∧
          ((start input).runFrom parse args).failure = some (.error (.unknownCommand word))) ∨
        ∃ slice rest f, Slice.next? left = some (slice, rest) ∧
          (s.runSlice parse slice).result = .error f ∧
          ((start input).runFrom parse args).failure = some f ∧
          ∀ word, f ≠ .error (.unknownCommand word))) ∧
    (args ≠ [] →
      (runWith parse args input).printed = ((start input).runFrom parse args).printed ∧
        (runWith parse args input).failure = ((start input).runFrom parse args).failure) ∧
    ∀ word, (runWith parse args input).failure = some (.error (.unknownCommand word)) ↔
      args.head? = some word ∧ CommandName.ofWord? word = none :=
  ⟨fun _ _ _ h => ⟨h.flatMap_words, h.isCut, h.split_eq_append, h.exists_runFrom_eq_after,
      h.length_add_length_le, fun _ _ => Slice.length_lt_of_next?,
      fun _ _ => h.eq_nil_of_ofWord?⟩,
    exists_handsOut parse _ (Nat.le_refl _) (Follows.fresh input),
    fun hargs => runWith_of_ne_nil hargs parse input,
    fun _ => failure_runWith_eq_unknownCommand_iff⟩

/-- An expression and the list of commands are handed out before a table is refused because of a
value that it does not take. -/
theorem run_handsOut_before_refused :
    (∃ s, HandsOut Options.parse (start []) ["expr", "a", "commands", "tt", "x"]
        [⟨.expr, "expr", ["a"]⟩, ⟨.help, "commands", []⟩] s ["tt", "x"]) ∧
      ([⟨.expr, "expr", ["a"]⟩, ⟨.help, "commands", []⟩] : List Slice).flatMap Slice.words
        ++ ["tt", "x"] = ["expr", "a", "commands", "tt", "x"] ∧
      (runWith Options.parse ["expr", "a", "commands", "tt", "x"] []).failure = some .usage ∧
      (runWith Options.parse ["x", "tt"] []).failure = some (.error (.unknownCommand "x")) := by
  have hexpr : Slice.next? ["expr", "a", "commands", "tt", "x"]
      = some (⟨.expr, "expr", ["a"]⟩, ["commands", "tt", "x"]) := by decide
  have hhelp : Slice.next? ["commands", "tt", "x"]
      = some (⟨.help, "commands", []⟩, ["tt", "x"]) := by decide
  obtain ⟨s, hs⟩ : ∃ s, (runSlice Options.parse (start []) ⟨.expr, "expr", ["a"]⟩).result = .ok s :=
    ⟨_, rfl⟩
  have hhands : HandsOut Options.parse (start []) ["expr", "a", "commands", "tt", "x"]
      [⟨.expr, "expr", ["a"]⟩, ⟨.help, "commands", []⟩] s ["tt", "x"] :=
    .next hexpr hs (.next hhelp rfl (.nothing _ _))
  have hall := run_handsOut Options.parse ["expr", "a", "commands", "tt", "x"] []
  have hrefused : (s.runFrom Options.parse ["tt", "x"]).failure = some .usage := by
    have htable : (s.runSlice Options.parse ⟨.table, "tt", ["x"]⟩).result = .error .usage := rfl
    rw [runFrom_of_error rfl htable]
  obtain ⟨hwords, -, -, ⟨printed, log, hrun⟩, -⟩ := hall.1 _ _ _ hhands
  refine ⟨⟨s, hhands⟩, hwords, ?_, ?_⟩
  · rw [(hall.2.2.1 (by decide)).2, hrun]
    exact hrefused
  · exact ((run_handsOut Options.parse ["x", "tt"] []).2.2.2 "x").mpr ⟨rfl, by decide⟩

end Session
end TwoLevel

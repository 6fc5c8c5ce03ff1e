import RollCall.CommandLine
import RollCall.Proofs.Arguments
import RollCall.Proofs.Deliveries

/-!
# How a call ends

A call of the program ends in one of three ways, and the bytes of its arguments
and of its input say in which: it prints the names of an order (`Sets`), it
accepts an answer and is silent (`Accepts`), or it fails with one message
(`Fails`). What the message says is settled by `Refusal`; there is one for each
call that neither sets nor accepts, and for no other.
-/

namespace RollCall.CommandLine

/-! ## The three ways -/

/-- The call asks for the names, and they are printed, a line feed after
each. -/
def Sets (arguments : List (List UInt8)) (exit : Exit) : Prop :=
  ∃ seed order, arguments = [Utf8.encode "fuzz", seed] ∧
    Order.ofSeed ⟨Utf8.lenient seed⟩ Pool.standard = .ok order ∧
    exit = ⟨0, order.names.flatMap fun name => Utf8.encode name ++ [0x0A], ""⟩

/-- The call brings an answer to the standard exercise that passes. -/
def Passes (arguments : List (List UInt8)) (raw : List UInt8) : Prop :=
  ∃ seed order, arguments = [Utf8.encode "judge", seed] ∧
    Order.ofSeed ⟨Utf8.lenient seed⟩ Pool.standard = .ok order ∧
    order.mark Greeting.standard (Utf8.lenient raw) = .ok ()

/-- The answer passes, and nothing is printed. -/
def Accepts (arguments : List (List UInt8)) (raw : List UInt8) (exit : Exit) :
    Prop :=
  Passes arguments raw ∧ exit = ⟨0, [], ""⟩

/-- What is wrong with a call, or with the answer that it brings. -/
inductive Refusal (program raw : List UInt8) :
    List (List UInt8) → Failure → Prop
  | usage {arguments : List (List UInt8)} (h : arguments.length ≠ 2) :
      Refusal program raw arguments (.usage (Utf8.lenient program))
  | unknownMode {mode : List UInt8} (seed : List UInt8)
      (hfuzz : mode ≠ Utf8.encode "fuzz") (hjudge : mode ≠ Utf8.encode "judge") :
      Refusal program raw [mode, seed] (.unknownMode (Utf8.lenient mode))
  | rejected {seed : List UInt8} {order : Order} {failure : Failure}
      (horder : Order.ofSeed ⟨Utf8.lenient seed⟩ Pool.standard = .ok order)
      (hmark : order.mark Greeting.standard (Utf8.lenient raw) =
        .error failure) :
      Refusal program raw [Utf8.encode "judge", seed] failure

/-- The call fails, and prints nothing but the message of its failure. -/
def Fails (program raw : List UInt8) (arguments : List (List UInt8))
    (exit : Exit) : Prop :=
  ∃ failure, Refusal program raw arguments failure ∧
    exit = ⟨1, [], failure.message ++ "\n"⟩

/-! ## Which way a call takes -/

variable {program seed raw : List UInt8} {order : Order} {stdin : List Delivery}

theorem execute_of_error {arguments : List (List UInt8)} {failure : Failure}
    (h : Invocation.ofArguments arguments = .error failure)
    (stdin : List Delivery) :
    execute arguments stdin = .ok ⟨1, [], failure.message ++ "\n"⟩ := by
  rw [execute, h]
  rfl

theorem execute_of_run {mode : Mode} {report : Report} (program : List UInt8)
    (h : Session.run ⟨mode, ⟨Utf8.lenient seed⟩⟩ Exercise.standard stdin {} =
      .ok report) :
    execute [program, Utf8.encode mode.name, seed] stdin =
      .ok (ending report.verdict report.output.received.toList) := by
  simp only [execute, Invocation.ofArguments_mode, h]
  rfl

theorem execute_fuzz (program : List UInt8) (stdin : List Delivery)
    (horder : Order.ofSeed ⟨Utf8.lenient seed⟩ Exercise.standard.pool =
      .ok order) :
    execute [program, Utf8.encode "fuzz", seed] stdin =
      .ok ⟨0, order.nameLines.flatten, ""⟩ := by
  have hfits : ({} : Sink).Fits order.nameLines.flatten.length := by
    simp [Sink.Fits]
  obtain ⟨report, hrun, hverdict, hreceived⟩ :=
    Session.run_fuzz horder stdin hfits rfl
  have hexecute := execute_of_run program hrun
  rwa [hverdict, hreceived] at hexecute

theorem execute_judge (program : List UInt8)
    (horder : Order.ofSeed ⟨Utf8.lenient seed⟩ Exercise.standard.pool =
      .ok order) (hdrain : drain stdin = ⟨raw, none⟩) :
    execute [program, Utf8.encode "judge", seed] stdin =
      .ok (ending (order.mark Greeting.standard (Utf8.lenient raw)) []) := by
  obtain ⟨report, hrun, hverdict⟩ := Session.run_judge horder hdrain {}
  have hexecute := execute_of_run program hrun
  rwa [hverdict, Session.output_of_run_judge hrun] at hexecute

/-- Each call ends, in one of the three ways. -/
theorem execute_cases (program : List UInt8) (arguments : List (List UInt8))
    (hdrain : drain stdin = ⟨raw, none⟩) :
    ∃ exit, execute (program :: arguments) stdin = .ok exit ∧
      (Sets arguments exit ∨ Accepts arguments raw exit ∨
        Fails program raw arguments exit) := by
  by_cases hlength : arguments.length = 2
  · obtain ⟨mode, seed, rfl⟩ := List.length_eq_two.mp hlength
    obtain ⟨order, horder, -⟩ :=
      Order.exists_ofSeed ⟨Utf8.lenient seed⟩ Exercise.standard.pool
    by_cases hfuzz : mode = Utf8.encode "fuzz"
    · subst hfuzz
      exact ⟨_, execute_fuzz program stdin horder,
        Or.inl ⟨seed, order, rfl, horder, rfl⟩⟩
    · by_cases hjudge : mode = Utf8.encode "judge"
      · subst hjudge
        refine ⟨_, execute_judge program horder hdrain, Or.inr ?_⟩
        cases hmark : order.mark Greeting.standard (Utf8.lenient raw) with
        | ok =>
            exact Or.inl ⟨⟨seed, order, rfl, horder, hmark⟩, rfl⟩
        | error failure =>
            exact Or.inr ⟨failure, .rejected horder hmark, rfl⟩
      · have hmode : ∀ m : Mode, mode ≠ Utf8.encode m.name := by
          rintro (_ | _)
          · exact hfuzz
          · exact hjudge
        have herror := Invocation.ofArguments_of_ne program seed hmode
        exact ⟨_, execute_of_error herror stdin,
          Or.inr (Or.inr ⟨_, .unknownMode seed hfuzz hjudge, rfl⟩)⟩
  · have herror := Invocation.ofArguments_of_length_ne program hlength
    exact ⟨_, execute_of_error herror stdin,
      Or.inr (Or.inr ⟨_, .usage hlength, rfl⟩)⟩

/-! ## No two ways at once -/

theorem encode_fuzz_ne_judge : Utf8.encode "fuzz" ≠ Utf8.encode "judge" := by
  decide

theorem Passes.not_fuzz {arguments : List (List UInt8)}
    (h : Passes arguments raw) (seed : List UInt8) :
    arguments ≠ [Utf8.encode "fuzz", seed] := by
  obtain ⟨seed', order, rfl, -, -⟩ := h
  intro heq
  exact encode_fuzz_ne_judge (List.cons.inj heq).1.symm

namespace Refusal

variable {arguments : List (List UInt8)} {failure : Failure}

theorem not_fuzz (h : Refusal program raw arguments failure)
    (seed : List UInt8) : arguments ≠ [Utf8.encode "fuzz", seed] := by
  rintro rfl
  cases h with
  | usage hlength => exact hlength rfl
  | unknownMode _ hfuzz => exact hfuzz rfl

theorem not_passes (h : Refusal program raw arguments failure) :
    ¬ Passes arguments raw := by
  rintro ⟨seed, order, rfl, horder, hmark⟩
  cases h with
  | usage hlength => exact hlength rfl
  | unknownMode _ _ hjudge => exact hjudge rfl
  | rejected horder' hmark' =>
      cases horder.symm.trans horder'
      cases hmark.symm.trans hmark'

end Refusal

/-- **The three ways a call ends.** A call with an input that can be read ends
in exactly one of them. It fails if its first argument is not `fuzz`, to the
byte, and it does not bring an answer that passes; how a mode that is no text
is read makes no difference. The exit code is 0 exactly if there is no message,
and names are only printed then. -/
theorem execute_outcomes (program : List UInt8) (arguments : List (List UInt8))
    (hdrain : drain stdin = ⟨raw, none⟩) :
    ∃ exit, execute (program :: arguments) stdin = .ok exit ∧
      ((Sets arguments exit ∧ ¬ Accepts arguments raw exit ∧
          ¬ Fails program raw arguments exit) ∨
        (¬ Sets arguments exit ∧ Accepts arguments raw exit ∧
          ¬ Fails program raw arguments exit) ∨
        (¬ Sets arguments exit ∧ ¬ Accepts arguments raw exit ∧
          Fails program raw arguments exit)) ∧
      (Fails program raw arguments exit ↔
        (∀ seed, arguments ≠ [Utf8.encode "fuzz", seed]) ∧
          ¬ Passes arguments raw) ∧
      (exit.code = 0 ↔ exit.stderr = "") ∧
      (exit.stdout ≠ [] → exit.code = 0) := by
  obtain ⟨exit, hexecute, hcases⟩ := execute_cases program arguments hdrain
  have hsets : Sets arguments exit → ¬ Accepts arguments raw exit := by
    rintro ⟨seed, order, rfl, -, -⟩ ⟨hpasses, -⟩
    exact hpasses.not_fuzz seed rfl
  have hfails : Fails program raw arguments exit →
      ¬ Sets arguments exit ∧ ¬ Accepts arguments raw exit := by
    rintro ⟨failure, hrefusal, -⟩
    constructor
    · rintro ⟨seed, order, rfl, -, -⟩
      exact hrefusal.not_fuzz seed rfl
    · rintro ⟨hpasses, -⟩
      exact hrefusal.not_passes hpasses
  refine ⟨exit, hexecute, by tauto, ?_, ?_⟩
  · constructor
    · rintro ⟨failure, hrefusal, -⟩
      exact ⟨hrefusal.not_fuzz, hrefusal.not_passes⟩
    · rintro ⟨hfuzz, hpasses⟩
      rcases hcases with ⟨seed, order, heq, -, -⟩ | ⟨haccepts, -⟩ | hfails
      · exact absurd heq (hfuzz seed)
      · exact absurd haccepts hpasses
      · exact hfails
  · rcases hcases with ⟨seed, order, -, -, rfl⟩ | ⟨-, rfl⟩ | ⟨failure, -, rfl⟩
    · simp
    · simp
    · simp

/-- A mode with a stray byte after it is no mode; a seed may be all stray. -/
theorem execute_outcomes_stray :
    let stdin : List Delivery := [.interrupted, .bytes [0x0A]]
    drain stdin = ⟨[0x0A], none⟩ ∧
      execute [[0x2E], [0x66, 0x75, 0x7A, 0x7A, 0xFF], []] stdin =
        .ok ⟨1, [], "Unknown method: fuzz\uFFFD\n"⟩ ∧
      ∃ exit, execute [[0x2E], [0x66, 0x75, 0x7A, 0x7A], [0xFF]] stdin =
          .ok exit ∧
        exit.code = 0 ∧ Sets [[0x66, 0x75, 0x7A, 0x7A], [0xFF]] exit := by
  intro stdin
  have hdrain : drain stdin = ⟨[0x0A], none⟩ := rfl
  refine ⟨hdrain, ?_, ?_⟩
  · obtain ⟨exit, hexecute, -, hfails, -⟩ := execute_outcomes [0x2E]
      [[0x66, 0x75, 0x7A, 0x7A, 0xFF], []] hdrain
    have hfuzz : ∀ seed : List UInt8,
        [[0x66, 0x75, 0x7A, 0x7A, 0xFF], []] ≠ [Utf8.encode "fuzz", seed] :=
      fun seed heq => absurd (List.cons.inj heq).1 (by decide)
    have hpasses : ¬ Passes [[0x66, 0x75, 0x7A, 0x7A, 0xFF], []] [0x0A] := by
      rintro ⟨seed, order, heq, -⟩
      exact absurd (List.cons.inj heq).1 (by decide)
    obtain ⟨failure, hrefusal, rfl⟩ := hfails.mpr ⟨hfuzz, hpasses⟩
    rw [hexecute]
    cases hrefusal with
    | usage hlength => exact absurd rfl hlength
    | unknownMode => decide
  · obtain ⟨exit, hexecute, hways, hfails, -, -⟩ := execute_outcomes [0x2E]
      [[0x66, 0x75, 0x7A, 0x7A], [0xFF]] hdrain
    have hnot : ¬ Fails [0x2E] [0x0A] [[0x66, 0x75, 0x7A, 0x7A], [0xFF]] exit :=
      fun h => (hfails.mp h).1 [0xFF] rfl
    rcases hways with ⟨hsets, -, -⟩ | ⟨-, ⟨haccepts, -⟩, -⟩ | ⟨-, -, h⟩
    · refine ⟨exit, hexecute, ?_, hsets⟩
      obtain ⟨seed, order, -, -, rfl⟩ := hsets
      rfl
    · exact absurd rfl (haccepts.not_fuzz [0xFF])
    · exact absurd h hnot

end RollCall.CommandLine

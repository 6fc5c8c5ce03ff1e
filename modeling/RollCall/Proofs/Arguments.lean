import RollCall.Invocation
import RollCall.Proofs.Malformed

/-!
# Arguments, by their bytes

Arguments are read leniently before a mode is looked for among them. Reading
leniently is not one to one, but a text without a replacement character is read
from no bytes but its own (`lenient_eq_iff`), and the names of the two modes
are such texts. So the bytes of an argument decide whether it names a mode, and
the number of arguments and the bytes of the mode decide what becomes of a list
of them (`ofArguments_verdict`).
-/

namespace RollCall

/-- A text without a replacement character is read from its own bytes only. -/
theorem Utf8.lenient_eq_iff {bytes : List UInt8} {text : String}
    (h : replacement ∉ text.toList) :
    lenient bytes = text ↔ bytes = encode text := by
  constructor
  · rintro rfl
    have hwhole : ¬ Malformed bytes := fun hbytes => h hbytes.mem_lenient
    rw [malformed_iff] at hwhole
    exact (encode_lenient hwhole).symm
  · rintro rfl
    exact lenient_encode text

theorem Mode.lenient_eq_name_iff {bytes : List UInt8} (mode : Mode) :
    Utf8.lenient bytes = mode.name ↔ bytes = Utf8.encode mode.name := by
  apply Utf8.lenient_eq_iff
  cases mode <;> decide

theorem Mode.ofName_name (mode : Mode) : ofName mode.name = .ok mode := by
  cases mode <;> rfl

theorem Mode.ofName_of_ne {name : String} (h : ∀ mode : Mode, name ≠ mode.name) :
    ofName name = .error (.unknownMode name) := by
  have hfuzz : name ≠ "fuzz" := h fuzz
  have hjudge : name ≠ "judge" := h judge
  rw [ofName, if_neg hfuzz, if_neg hjudge]

namespace Invocation

variable {mode : List UInt8} {arguments : List (List UInt8)}

theorem ofArguments_mode (program seed : List UInt8) (mode : Mode) :
    ofArguments [program, Utf8.encode mode.name, seed] =
      .ok ⟨mode, ⟨Utf8.lenient seed⟩⟩ := by
  simp only [ofArguments, List.map_cons, List.map_nil, Utf8.lenient_encode,
    ofMode, Mode.ofName_name]
  rfl

theorem ofArguments_of_ne (program seed : List UInt8)
    (h : ∀ m : Mode, mode ≠ Utf8.encode m.name) :
    ofArguments [program, mode, seed] =
      .error (.unknownMode (Utf8.lenient mode)) := by
  have hname : ∀ m : Mode, Utf8.lenient mode ≠ m.name := fun m heq =>
    h m (m.lenient_eq_name_iff.mp heq)
  simp only [ofArguments, List.map_cons, List.map_nil, ofMode,
    Mode.ofName_of_ne hname]
  rfl

/-- The number of arguments is looked at before any of them. -/
theorem ofArguments_of_length_ne (program : List UInt8)
    (h : arguments.length ≠ 2) :
    ofArguments (program :: arguments) =
      .error (.usage (Utf8.lenient program)) := by
  match arguments, h with
  | [], _ => rfl
  | [_], _ => rfl
  | [_, _], h => exact absurd rfl h
  | _ :: _ :: _ :: _, _ => rfl

/-! ## What becomes of a list of arguments -/

/-- A mode and a seed come to an invocation, or to a failure that blames the
mode. -/
theorem ofArguments_cases (program mode seed : List UInt8) :
    (∃ m : Mode, mode = Utf8.encode m.name ∧
        ofArguments [program, mode, seed] = .ok ⟨m, ⟨Utf8.lenient seed⟩⟩) ∨
      (∀ m : Mode, mode ≠ Utf8.encode m.name) ∧
        ofArguments [program, mode, seed] =
          .error (.unknownMode (Utf8.lenient mode)) := by
  by_cases hmode : ∃ m : Mode, mode = Utf8.encode m.name
  · obtain ⟨m, rfl⟩ := hmode
    exact Or.inl ⟨m, rfl, ofArguments_mode program seed m⟩
  · rw [not_exists] at hmode
    exact Or.inr ⟨hmode, ofArguments_of_ne program seed hmode⟩

theorem ofArguments_eq_ok_iff {program seed : List UInt8}
    {invocation : Invocation} :
    ofArguments [program, mode, seed] = .ok invocation ↔
      mode = Utf8.encode invocation.mode.name ∧
        invocation.seed = ⟨Utf8.lenient seed⟩ := by
  constructor
  · intro h
    rcases ofArguments_cases program mode seed with
      ⟨m, hmode, hok⟩ | ⟨-, herror⟩
    · cases h.symm.trans hok
      exact ⟨hmode, rfl⟩
    · cases h.symm.trans herror
  · rintro ⟨rfl, hseed⟩
    rw [ofArguments_mode, ← hseed]

theorem ofArguments_eq_error_iff {program seed : List UInt8}
    {failure : Failure} :
    ofArguments [program, mode, seed] = .error failure ↔
      (∀ m : Mode, mode ≠ Utf8.encode m.name) ∧
        failure = .unknownMode (Utf8.lenient mode) := by
  constructor
  · intro h
    rcases ofArguments_cases program mode seed with
      ⟨m, -, hok⟩ | ⟨hmode, herror⟩
    · cases h.symm.trans hok
    · cases h.symm.trans herror
      exact ⟨hmode, rfl⟩
  · rintro ⟨hmode, rfl⟩
    exact ofArguments_of_ne program seed hmode

theorem ofArguments_eq_usage_iff {program : String} :
    ofArguments arguments = .error (.usage program) ↔
      arguments.length ≠ 3 ∧
        program = (arguments.head?.map Utf8.lenient).getD standardProgram := by
  match arguments with
  | [] => simp [ofArguments, eq_comm]
  | first :: rest =>
      by_cases hlength : rest.length = 2
      · obtain ⟨mode, seed, rfl⟩ := List.length_eq_two.mp hlength
        simp [ofArguments_eq_error_iff]
      · simp [ofArguments_of_length_ne first hlength, hlength, eq_comm]

/-- **The bytes of the arguments decide.** Unless there are three of them, with
the name of the program, the failure is one of usage, whatever they are. Of
three, the second must be the name of a mode to the byte, so that no bytes that
are not UTF-8 are a mode, however they read. The third is taken as it reads, and
that is what it is if it is UTF-8 at all; nothing in it makes a failure. -/
theorem ofArguments_verdict :
    (∀ arguments program, ofArguments arguments = .error (.usage program) ↔
      arguments.length ≠ 3 ∧
        program = (arguments.head?.map Utf8.lenient).getD "hello-keith") ∧
    ∀ program mode seed : List UInt8,
      let fuzz : List UInt8 := [0x66, 0x75, 0x7A, 0x7A]
      let judge : List UInt8 := [0x6A, 0x75, 0x64, 0x67, 0x65]
      let outcome := ofArguments [program, mode, seed]
      (∀ text, outcome = .ok ⟨.fuzz, ⟨text⟩⟩ ↔
        mode = fuzz ∧ text = Utf8.lenient seed) ∧
      (∀ text, outcome = .ok ⟨.judge, ⟨text⟩⟩ ↔
        mode = judge ∧ text = Utf8.lenient seed) ∧
      (∀ failure, outcome = .error failure ↔
        (mode ≠ fuzz ∧ mode ≠ judge) ∧
          failure = .unknownMode (Utf8.lenient mode)) ∧
      (Utf8.Malformed mode → ∀ invocation, outcome ≠ .ok invocation) ∧
      (¬ Utf8.Malformed seed → Utf8.encode (Utf8.lenient seed) = seed) := by
  refine ⟨fun arguments program => ofArguments_eq_usage_iff, ?_⟩
  intro program mode seed fuzz judge outcome
  refine ⟨?_, ?_, ?_, ?_, ?_⟩
  · intro text
    rw [ofArguments_eq_ok_iff, Seed.mk.injEq]
    rfl
  · intro text
    rw [ofArguments_eq_ok_iff, Seed.mk.injEq]
    rfl
  · intro failure
    rw [ofArguments_eq_error_iff]
    apply and_congr_left
    intro _
    constructor
    · intro h
      exact ⟨h .fuzz, h .judge⟩
    · rintro ⟨hfuzz, hjudge⟩ (_ | _)
      · exact hfuzz
      · exact hjudge
  · intro hmode invocation hok
    rw [ofArguments_eq_ok_iff] at hok
    exact Utf8.malformed_iff_encode_ne.mp hmode _ hok.1.symm
  · intro hseed
    rw [Utf8.malformed_iff] at hseed
    exact Utf8.encode_lenient hseed

/-- A mode that is cut off in a character is none, and a seed may be. -/
theorem ofArguments_verdict_truncated :
    let mode : List UInt8 := [0x66, 0x75, 0x7A, 0x7A, 0xC3]
    let seed : List UInt8 := [0x61, 0xC3]
    let whole : List UInt8 := [0x61, 0xC3, 0xA9]
    (Utf8.Malformed mode ∧ ¬ Utf8.Malformed whole) ∧
      (∀ invocation, ofArguments [[], mode, seed] ≠ .ok invocation) ∧
      ofArguments [[], mode, seed] = .error (.unknownMode "fuzz\uFFFD") ∧
      ofArguments [[], [0x66, 0x75, 0x7A, 0x7A], seed] =
        .ok ⟨.fuzz, ⟨"a\uFFFD"⟩⟩ ∧
      Utf8.encode (Utf8.lenient whole) = whole := by
  intro mode seed whole
  have hmode : Utf8.Malformed mode := Utf8.malformed_iff.mpr (by decide)
  have hwhole : ¬ Utf8.Malformed whole := by
    rw [Utf8.malformed_iff]
    decide
  obtain ⟨-, hthree⟩ := ofArguments_verdict
  obtain ⟨-, -, herror, hnone, -⟩ := hthree [] mode seed
  obtain ⟨hfuzz, -⟩ := hthree [] [0x66, 0x75, 0x7A, 0x7A] seed
  obtain ⟨-, -, -, -, hsame⟩ := hthree [] mode whole
  refine ⟨⟨hmode, hwhole⟩, hnone hmode, ?_, ?_, hsame hwhole⟩
  · exact (herror _).mpr ⟨by decide, by decide⟩
  · exact (hfuzz _).mpr ⟨rfl, by decide⟩

end Invocation

end RollCall

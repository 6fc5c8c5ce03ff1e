import RollCall.Proofs.Acceptance
import RollCall.Proofs.Decoding
import RollCall.Proofs.Sessions

/-!
# Setting an exercise and marking the answer to it

The names that a session writes are read line by line, each is greeted, and the
greetings go to a session of the same seed that judges. On the way a line may
lose a carriage return twice, once as a name and once as a greeting, and a line
feed makes two lines of one; nothing else goes wrong (`mark_answerTo_iff`).
-/

namespace RollCall

/-! ## What is written -/

theorem Utf8.encode_append (first second : String) :
    encode (first ++ second) = encode first ++ encode second := by
  simp [encode_eq_flatMap]

theorem Utf8.encode_toText (lines : List String) :
    encode (Lines.toText lines) =
      (lines.map fun line => encode line ++ [0x0A]).flatten := by
  induction lines with
  | nil => rfl
  | cons line lines ih =>
      have hcons : Lines.toText (line :: lines) =
          line ++ "\n" ++ Lines.toText lines := by simp [Lines.toText]
      rw [hcons, encode_append, encode_append, ih]
      rfl

theorem Order.flatten_nameLines (o : Order) :
    o.nameLines.flatten = Utf8.encode (Lines.toText o.names) :=
  (Utf8.encode_toText o.names).symm

/-! ## What becomes of a line -/

theorem Lines.length_withoutReturn_le (line : String) :
    (withoutReturn line).length ≤ line.length := by
  by_cases h : line.toList.getLast? = some '\r'
  · simp [withoutReturn, dropReturn, h, ← String.length_toList]
  · rw [withoutReturn_of_ne h]

theorem Lines.length_withoutReturn_lt {line : String}
    (h : line.toList.getLast? = some '\r') :
    (withoutReturn line).length < line.length := by
  obtain ⟨body, hbody⟩ := List.getLast?_eq_some_iff.mp h
  simp [withoutReturn, ← String.length_toList, hbody]

theorem Greeting.length_greet (g : Greeting) (name : String) :
    (g.greet name).length = g.before.length + name.length + g.after.length := by
  simp [greet]

/-- Greeting a name that was read from its line, and reading that greeting,
gives the line expected only if no carriage return was lost on either way. -/
theorem Greeting.withoutReturn_greet_iff (g : Greeting) (name : String) :
    Lines.withoutReturn (g.greet (Lines.withoutReturn name)) = g.greet name ↔
      name.toList.getLast? ≠ some '\r' ∧
        (g.greet name).toList.getLast? ≠ some '\r' := by
  constructor
  · intro heq
    -- reading never makes a line longer, so no character was lost
    have hlength := congrArg String.length heq
    have houter := Lines.length_withoutReturn_le
      (g.greet (Lines.withoutReturn name))
    rw [hlength, g.length_greet, g.length_greet] at houter
    have hname : name.toList.getLast? ≠ some '\r' := by
      intro hcr
      have := Lines.length_withoutReturn_lt hcr
      omega
    refine ⟨hname, ?_⟩
    intro hcr
    rw [Lines.withoutReturn_of_ne hname] at hlength
    exact absurd hlength (Nat.ne_of_lt (Lines.length_withoutReturn_lt hcr))
  · rintro ⟨hname, hline⟩
    rw [Lines.withoutReturn_of_ne hname, Lines.withoutReturn_of_ne hline]

/-! ## The two sessions -/

/-- The answer that greets each line of what a session has written. -/
def Greeting.answerTo (g : Greeting) (written : List UInt8) : String :=
  String.join ((Lines.ofText (Utf8.lenient written)).map fun line =>
    g.before ++ line ++ g.after ++ "\n")

theorem Greeting.answerTo_eq (g : Greeting) (written : List UInt8) :
    g.answerTo written =
      Lines.toText ((Lines.ofText (Utf8.lenient written)).map g.greet) := by
  rw [answerTo, Lines.toText, List.map_map]
  rfl

/-- With no line feed in a line expected, the lines of the answer are those
expected, but for the carriage returns that are lost. -/
theorem Order.ofText_answerTo {o : Order} {g : Greeting}
    (h : ∀ line ∈ o.expected g, '\n' ∉ line.toList) :
    Lines.ofText (g.answerTo (Utf8.encode (Lines.toText o.names))) =
      o.names.map fun name =>
        Lines.withoutReturn (g.greet (Lines.withoutReturn name)) := by
  have hgreet : ∀ name ∈ o.names, '\n' ∉ (g.greet name).toList :=
    fun name hname => h _ (List.mem_map_of_mem hname)
  have hnames : ∀ name ∈ o.names, '\n' ∉ name.toList := fun name hname =>
    (Greeting.notMem_greet_iff.mp (hgreet name hname)).2.1
  have hread : ∀ line ∈ o.names.map fun name => g.greet (Lines.withoutReturn name),
      '\n' ∉ line.toList := by
    intro line hline
    obtain ⟨name, hname, rfl⟩ := List.mem_map.mp hline
    obtain ⟨hbefore, hmid, hafter⟩ :=
      Greeting.notMem_greet_iff.mp (hgreet name hname)
    refine Greeting.notMem_greet_iff.mpr ⟨hbefore, ?_, hafter⟩
    intro hmem
    rw [Lines.withoutReturn, String.toList_ofList] at hmem
    exact hmid (Lines.mem_of_mem_dropReturn hmem)
  rw [g.answerTo_eq, Utf8.lenient_encode, Lines.ofText_toText hnames,
    List.map_map, Function.comp_def, Lines.ofText_toText hread, List.map_map]
  rfl

theorem Order.mark_answerTo_iff (o : Order) (g : Greeting) :
    o.mark g (g.answerTo (Utf8.encode (Lines.toText o.names))) = .ok () ↔
      (∀ line ∈ o.expected g, '\n' ∉ line.toList) ∧
        (∀ name ∈ o.names, name.toList.getLast? ≠ some '\r') ∧
        ∀ line ∈ o.expected g, line.toList.getLast? ≠ some '\r' := by
  by_cases hlf : ∀ line ∈ o.expected g, '\n' ∉ line.toList
  · have hlength : (∃ count, (o.names.map fun name =>
          Lines.withoutReturn (g.greet (Lines.withoutReturn name))) =
            o.names.map g.greet ++ List.replicate count "") ↔
        ∀ name ∈ o.names,
          Lines.withoutReturn (g.greet (Lines.withoutReturn name)) =
            g.greet name := by
      rw [← List.map_inj_left]
      constructor
      · rintro ⟨count, heq⟩
        -- as many greetings as names leave no room for blank lines
        have hcount : count = 0 := by simpa using congrArg List.length heq
        simpa [hcount] using heq
      · intro heq
        exact ⟨0, by simpa using heq⟩
    rw [mark_eq_ok_iff, ofText_answerTo hlf, and_iff_right hlf, expected,
      hlength, List.forall_mem_map, ← forall₂_and]
    exact forall₂_congr fun name _ => g.withoutReturn_greet_iff name
  · constructor
    · intro hok
      exact absurd (notMem_of_mark_ok hok) hlf
    · rintro ⟨hno, -⟩
      exact absurd hno hlf

/-- The standard exercise keeps its lines: its names and its greeting hold
neither of the two characters. -/
theorem Order.mark_answerTo_standard {seed : Seed} {o : Order}
    (horder : ofSeed seed Exercise.standard.pool = .ok o) :
    o.mark Greeting.standard (Greeting.standard.answerTo
      (Utf8.encode (Lines.toText o.names))) = .ok () := by
  have hperm := names_perm_of_ofSeed horder
  have hnames : ∀ name ∈ Pool.standard.names,
      '\n' ∉ (Greeting.standard.greet name).toList ∧
        name.toList.getLast? ≠ some '\r' ∧
        (Greeting.standard.greet name).toList.getLast? ≠ some '\r' := by
    decide
  have hexpected : ∀ line ∈ o.expected Greeting.standard,
      ∃ name ∈ Pool.standard.names, Greeting.standard.greet name = line := by
    intro line hline
    obtain ⟨name, hname, rfl⟩ := List.mem_map.mp hline
    exact ⟨name, hperm.subset hname, rfl⟩
  refine (o.mark_answerTo_iff Greeting.standard).mpr ⟨?_, ?_, ?_⟩
  · intro line hline
    obtain ⟨name, hname, rfl⟩ := hexpected line hline
    exact (hnames name hname).1
  · intro name hname
    exact (hnames name (hperm.subset hname)).2.1
  · intro line hline
    obtain ⟨name, hname, rfl⟩ := hexpected line hline
    exact (hnames name hname).2.2

/-- **The round trip.** Let a session write to a sink that works, and let a
session with the same seed read the answer that greets each line written. It
accepts exactly if no line expected holds a line feed and neither a name nor a
line expected ends with a carriage return. With the standard exercise it
accepts. -/
theorem Session.run_judge_answerTo_iff (seed : Seed) (exercise : Exercise) :
    ∃ order, Order.ofSeed seed exercise.pool = .ok order ∧
      let expected := order.names.map fun name =>
        exercise.greeting.before ++ name ++ exercise.greeting.after
      ∀ (unread : List Delivery) (output : Sink),
        output.Fits order.nameLines.flatten.length →
        output.flushFailure? = none →
        ∃ posed written, run ⟨.fuzz, seed⟩ exercise unread output = .ok posed ∧
          posed.verdict = .ok () ∧
          posed.output.received.toList = output.received.toList ++ written ∧
          ∀ (input : List Delivery) (unwritten : Sink),
            drain input =
              ⟨Utf8.encode (exercise.greeting.answerTo written), none⟩ →
            ∃ assessed,
              run ⟨.judge, seed⟩ exercise input unwritten = .ok assessed ∧
              (assessed.verdict = .ok () ↔
                (∀ line ∈ expected, '\n' ∉ line.toList) ∧
                (∀ name ∈ exercise.pool.names,
                  name.toList.getLast? ≠ some '\r') ∧
                ∀ line ∈ expected, line.toList.getLast? ≠ some '\r') ∧
              (exercise = Exercise.standard → assessed.verdict = .ok ()) := by
  obtain ⟨order, horder, hperm⟩ := Order.exists_ofSeed seed exercise.pool
  refine ⟨order, horder, ?_⟩
  intro expected unread output hfits hflush
  obtain ⟨posed, hposed, hok, hreceived⟩ :=
    run_fuzz horder unread hfits hflush
  rw [order.flatten_nameLines] at hreceived
  refine ⟨posed, _, hposed, hok, hreceived, ?_⟩
  intro input unwritten hdrain
  obtain ⟨assessed, hassessed, hverdict⟩ :=
    run_judge horder hdrain unwritten
  rw [Utf8.lenient_encode] at hverdict
  refine ⟨assessed, hassessed, ?_, ?_⟩
  · rw [hverdict, order.mark_answerTo_iff]
    simp only [hperm.mem_iff]
    rfl
  · rintro rfl
    rw [hverdict]
    exact Order.mark_answerTo_standard horder

/-- A sink with some bytes already and just room enough, and an answer that
comes after an interruption. -/
theorem Session.run_judge_answerTo_interrupted :
    ∃ order, Order.ofSeed ⟨"alpha"⟩ Exercise.standard.pool = .ok order ∧
      ∃ posed written, run ⟨.fuzz, ⟨"alpha"⟩⟩ Exercise.standard []
          { room := some order.nameLines.flatten.length, received := #[0x0A] } =
            .ok posed ∧
        posed.output.received.toList = 0x0A :: written ∧
        ∃ assessed, run ⟨.judge, ⟨"alpha"⟩⟩ Exercise.standard
            [.interrupted, .bytes
              (Utf8.encode (Greeting.standard.answerTo written))] {} =
              .ok assessed ∧
          assessed.verdict = .ok () := by
  obtain ⟨order, horder, htrip⟩ :=
    run_judge_answerTo_iff ⟨"alpha"⟩ Exercise.standard
  obtain ⟨posed, written, hposed, -, hreceived, hjudge⟩ :=
    htrip []
      { room := some order.nameLines.flatten.length, received := #[0x0A] }
      (by simp [Sink.Fits]) rfl
  obtain ⟨assessed, hassessed, -, hok⟩ :=
    hjudge [.interrupted, .bytes
      (Utf8.encode (Greeting.standard.answerTo written))] {} (drain_bytes _)
  exact ⟨order, horder, posed, written, hposed, hreceived, assessed,
    hassessed, hok rfl⟩

end RollCall

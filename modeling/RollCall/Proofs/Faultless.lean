import RollCall.Proofs.Pools
import RollCall.Proofs.Sessions

/-!
# No session meets a fault

A fault needs a draw from nothing or a place beyond the end. To say which draws
a selection asks for, it is run with draws that are written down as they are
answered; that changes nothing else (`select_recorded`). What is written down
counts from the number of elements to one, and each place lies among the
elements that are left (`draws_of_select_recorded`). A pool that a user can make
has at least one name, so a session begins with such draws and no others.
-/

namespace RollCall

/-! ## Draws written down -/

section recorded

variable {α σ : Type} {draw : ℕ → σ → Except Fault (ℕ × σ)}

/-- Draws in the same way, and writes down the length asked for with the place
that was the answer. -/
def recorded (draw : ℕ → σ → Except Fault (ℕ × σ)) (len : ℕ)
    (s : σ × List (ℕ × ℕ)) : Except Fault (ℕ × σ × List (ℕ × ℕ)) :=
  (draw len s.1).map fun drawn => (drawn.1, drawn.2, s.2 ++ [(len, drawn.1)])

theorem recorded_of_ok {len i : ℕ} {s t : σ} (h : draw len s = .ok (i, t))
    (draws : List (ℕ × ℕ)) :
    recorded draw len (s, draws) = .ok (i, t, draws ++ [(len, i)]) := by
  rw [recorded, h]
  rfl

theorem recorded_of_error {len : ℕ} {s : σ} {fault : Fault}
    (h : draw len s = .error fault) (draws : List (ℕ × ℕ)) :
    recorded draw len (s, draws) = .error fault := by
  rw [recorded, h]
  rfl

theorem InRange.recorded (h : InRange draw) : InRange (recorded draw) := by
  rintro len ⟨s, draws⟩ hlen
  obtain ⟨i, t, hdraw, hlt⟩ := h len s hlen
  exact ⟨i, _, recorded_of_ok hdraw draws, hlt⟩

/-- Without what was written down, a recorded selection is the selection, in
its result and in its faults. -/
theorem select_recorded (xs : List α) (s : σ) (draws : List (ℕ × ℕ)) :
    (select (recorded draw) xs (s, draws)).map (fun out => (out.1, out.2.1)) =
      select draw xs s := by
  induction hn : xs.length generalizing xs s draws with
  | zero =>
      rw [List.length_eq_zero_iff.mp hn, select, select]
      rfl
  | succ n ih =>
      obtain ⟨first, others, rfl⟩ := List.exists_cons_of_length_eq_add_one hn
      cases hdraw : draw (first :: others).length s with
      | error fault =>
          rw [select, select, hdraw, recorded_of_error hdraw]
          rfl
      | ok drawn =>
          obtain ⟨i, t⟩ := drawn
          have hdraw' := recorded_of_ok hdraw draws
          by_cases hi : i < (first :: others).length
          · have hlength := length_eraseIdx_add_one hi
            have hrest := ih ((first :: others).eraseIdx i) t
              (draws ++ [((first :: others).length, i)]) (by omega)
            rw [select_round hi hdraw, select_round hi hdraw', ← hrest]
            cases select (recorded draw) ((first :: others).eraseIdx i)
              (t, draws ++ [((first :: others).length, i)]) <;> rfl
          · rw [select, select, hdraw, hdraw']
            simp only [dif_neg hi]
            rfl

theorem recorded_eq_ok {len i : ℕ} {s t : σ × List (ℕ × ℕ)}
    (h : recorded draw len s = .ok (i, t)) : t.2 = s.2 ++ [(len, i)] := by
  unfold recorded at h
  cases hdraw : draw len s.1 with
  | error fault =>
      rw [hdraw] at h
      cases h
  | ok drawn =>
      rw [hdraw] at h
      cases h
      rfl

/-- The lengths count down to one, and each place lies below its length. -/
theorem draws_of_select_recorded {xs : List α} {s : σ × List (ℕ × ℕ)}
    {out : List α × σ × List (ℕ × ℕ)}
    (h : select (recorded draw) xs s = .ok out) :
    ∃ draws, out.2.2 = s.2 ++ draws ∧
      draws.map Prod.fst = (List.range xs.length).map (xs.length - ·) ∧
      ∀ d ∈ draws, d.2 < d.1 := by
  fun_induction select (recorded draw) xs s generalizing out with
  | case1 s =>
      cases h
      exact ⟨[], by simp, rfl, by simp⟩
  | case2 => cases h
  | case3 => cases h
  | case4 s first others i t hdraw hi rest u hrest ih =>
      cases h
      obtain ⟨draws, hwritten, hlengths, hplaces⟩ := ih hrest
      refine ⟨((first :: others).length, i) :: draws, ?_, ?_, ?_⟩
      · rw [hwritten, recorded_eq_ok hdraw]
        simp
      · have hlength : ((first :: others).eraseIdx i).length = others.length := by
          simp [List.length_eraseIdx_of_lt hi]
        rw [List.map_cons, hlengths, hlength, List.length_cons,
          List.range_succ_eq_map]
        simp [Function.comp_def]
      · exact List.forall_mem_cons.mpr ⟨hi, hplaces⟩
  | case5 => cases h

end recorded

/-! ## Exercises that can be made -/

/-- The pools to be had, by the names that they are made of. -/
inductive Pool.Made : List String → Pool → Prop
  | standard : Made ["Bjarne", "Keith", "Alice", "Bob", "Charlie"] Pool.standard
  | ofList {names : List String} {p : Pool} (h : Pool.ofList names = .ok p) :
      Made names p

theorem Pool.Made.names_eq {names : List String} {p : Pool}
    (h : Made names p) : p.names = names ∧ names ≠ [] ∧ names.Nodup := by
  cases h with
  | standard => exact ⟨rfl, Pool.standard.names_ne_nil, Pool.standard.nodup⟩
  | ofList h => exact names_of_ofList h

/-- The exercises that a chain of steps makes, by the names that the last pool
in the chain is made of. -/
inductive Exercise.Built : List String → Exercise → Prop
  | standard :
      Built ["Bjarne", "Keith", "Alice", "Bob", "Charlie"] Exercise.standard
  | ofNames {names : List String} {e : Exercise}
      (h : Exercise.ofNames names = .ok e) : Built names e
  | withPool {before names : List String} {e : Exercise} {p : Pool}
      (he : Built before e) (hp : Pool.Made names p) : Built names (e.withPool p)
  | withGreeting {names : List String} {e : Exercise} (he : Built names e)
      (g : Greeting) : Built names (e.withGreeting g)

theorem Exercise.Built.names_eq {names : List String} {e : Exercise}
    (h : Built names e) : e.pool.names = names ∧ names ≠ [] ∧ names.Nodup := by
  induction h with
  | standard => exact Pool.Made.standard.names_eq
  | @ofNames names e h =>
      unfold Exercise.ofNames at h
      cases hpool : Pool.ofList names with
      | ok p =>
          rw [hpool] at h
          cases h
          exact Pool.names_of_ofList hpool
      | error cause =>
          rw [hpool] at h
          cases h
  | withPool _ hp _ => exact hp.names_eq
  | withGreeting _ _ ih => exact ih

/-! ## The draws of a shuffle -/

/-- The draws of a shuffle, one for each name: their lengths count down to one,
and each place is one of a name that is left. -/
theorem Pool.exists_draws {σ : Type} [WordSource σ] (p : Pool) (s : σ) :
    ∃ o t draws, p.shuffle s = .ok (o, t) ∧
      select (recorded drawBelow) p.names (s, []) = .ok (o.names, t, draws) ∧
      draws.map Prod.fst = (List.range p.size).map (p.size - ·) ∧
      (∀ d ∈ draws, d.2 < d.1) ∧ o.size = p.size := by
  obtain ⟨names, ⟨t, draws⟩, hrecorded, hperm⟩ :=
    exists_select drawBelow_inRange.recorded p.names (s, [])
  obtain ⟨draws', hwritten, hlengths, hplaces⟩ :=
    draws_of_select_recorded hrecorded
  obtain rfl : draws = draws' := hwritten
  have hselect : select drawBelow p.names s = .ok (names, t) := by
    rw [← select_recorded p.names s [], hrecorded]
    rfl
  exact ⟨⟨names⟩, t, draws, shuffle_eq_ok_iff.mpr hselect, hrecorded, hlengths,
    hplaces, hperm.length_eq⟩

namespace Session

/-- Whatever a session is asked to do, and on whatever channels, it comes to a
report. -/
theorem exists_run (invocation : Invocation) (exercise : Exercise)
    (input : List Delivery) (output : Sink) :
    ∃ report, run invocation exercise input output = .ok report := by
  obtain ⟨order, horder, -⟩ :=
    Order.exists_ofSeed invocation.seed exercise.pool
  exact ⟨_, by rw [run, horder]⟩

/-- **No session meets a fault.** An exercise that can be made has the names it
was given, at least one and none twice. In any state of the keystream, a
shuffle of `n` names draws below `n`, then below `n - 1`, and so on down to 1,
each time a place that there is, and arranges all of them. So there is a report
in the end, on whatever channels. -/
theorem run_faultless {names : List String} {exercise : Exercise}
    (hbuilt : exercise.Built names) (invocation : Invocation) :
    (exercise.pool.names = names ∧ names ≠ [] ∧ names.Nodup) ∧
      (∀ g : Keystream, ∃ order g' draws,
        exercise.pool.shuffle g = .ok (order, g') ∧
          select (recorded drawBelow) names (g, []) =
            .ok (order.names, g', draws) ∧
          draws.map Prod.fst =
            (List.range names.length).map (names.length - ·) ∧
          (∀ d ∈ draws, d.1 ≠ 0 ∧ d.2 < d.1) ∧
          order.size = names.length ∧ 1 ≤ order.size) ∧
      ∀ (input : List Delivery) (output : Sink),
        ∃ report, run invocation exercise input output = .ok report := by
  obtain ⟨rfl, hne, hnodup⟩ := hbuilt.names_eq
  refine ⟨⟨rfl, hne, hnodup⟩, fun g => ?_, exists_run invocation exercise⟩
  obtain ⟨order, g', draws, hshuffle, hrecorded, hlengths, hplaces, hsize⟩ :=
    exercise.pool.exists_draws g
  have hpos : 1 ≤ order.size := by
    rw [hsize]
    exact List.length_pos_iff.mpr hne
  refine ⟨order, g', draws, hshuffle, hrecorded, hlengths, fun d hd => ?_,
    hsize, hpos⟩
  have := hplaces d hd
  omega

/-- A pool put in place of the standard one, a greeting of its own, an input
that breaks off and a sink without room. -/
theorem run_faultless_letters :
    let letters : Pool := ⟨["b", "", "a"], by decide, by decide⟩
    let exercise :=
      (Exercise.standard.withGreeting ⟨"", "\r"⟩).withPool letters
    let broken : Sink := { room := some 0, flushFailure? := some "closed" }
    exercise.Built ["b", "", "a"] ∧
      (∃ draws, draws.map Prod.fst = [3, 2, 1] ∧ (∀ d ∈ draws, d.2 < d.1) ∧
        ∃ order g', select (recorded drawBelow) ["b", "", "a"]
          (Keystream.ofSeed ⟨"alpha"⟩, []) = .ok (order, g', draws)) ∧
      ∃ report, run ⟨.judge, ⟨"alpha"⟩⟩ exercise [.failure "gone"] broken =
        .ok report := by
  intro letters exercise broken
  have hrepeat : Pool.firstRepeat? ["b", "", "a"] = none := by
    simp [Pool.firstRepeat?, Pool.firstSeen?]
  have hletters : Pool.Made ["b", "", "a"] letters :=
    .ofList (Pool.ofList_of_firstRepeat? (by decide) hrepeat)
  have hbuilt : exercise.Built ["b", "", "a"] :=
    (Exercise.Built.standard.withGreeting _).withPool hletters
  obtain ⟨-, hdraws, hrun⟩ := run_faultless hbuilt ⟨.judge, ⟨"alpha"⟩⟩
  obtain ⟨order, g', draws, -, hrecorded, hlengths, hplaces, -⟩ :=
    hdraws (Keystream.ofSeed ⟨"alpha"⟩)
  exact ⟨hbuilt, ⟨draws, hlengths, fun d hd => (hplaces d hd).2, order.names, g',
    hrecorded⟩, hrun _ broken⟩

end Session

end RollCall

import Mathlib.Data.List.Nodup
import Mathlib.Data.List.Perm.Basic
import Mathlib.Logic.Equiv.Defs
import RollCall.Proofs.Faultless

/-!
# An arrangement tells its draws

A selection can be made from a script, a list of the places to be drawn. The
place of an element among those left is found again by looking for it, so a list
and an arrangement of it give back a script (`retrace`). It makes that
arrangement (`select_retrace`), and where no element stands twice no other
script does (`exists_select_scripted`).
-/

namespace RollCall

/-! ## Scripts -/

/-- Draws the places of a script, whatever lengths they are drawn below. -/
def scripted (_ : ℕ) : List ℕ → Except Fault (ℕ × List ℕ)
  | [] => .error .emptyRange
  | place :: later => .ok (place, later)

/-- The scripts for `n` elements: one place for each, below the number of those
that are left. -/
def scripts (n : ℕ) : Set (List ℕ) :=
  {places | places.length = n ∧
    ∀ (k : ℕ) (hk : k < places.length), places[k] < n - k}

theorem nil_mem_scripts_iff {n : ℕ} : [] ∈ scripts n ↔ n = 0 := by
  simp [scripts, eq_comm]

theorem cons_mem_scripts_iff {n place : ℕ} {later : List ℕ} :
    place :: later ∈ scripts n ↔ place < n ∧ later ∈ scripts (n - 1) := by
  simp only [scripts, Set.mem_ofPred_eq, List.length_cons]
  constructor
  · rintro ⟨hlength, hplaces⟩
    refine ⟨hplaces 0 (Nat.succ_pos _), by omega, fun k hk => ?_⟩
    have := hplaces (k + 1) (Nat.succ_lt_succ hk)
    rw [List.getElem_cons_succ] at this
    omega
  · rintro ⟨hplace, hlength, hplaces⟩
    refine ⟨by omega, fun k hk => ?_⟩
    cases k with
    | zero => exact hplace
    | succ k =>
        have := hplaces k (Nat.lt_of_succ_lt_succ hk)
        rw [List.getElem_cons_succ]
        omega

section select

variable {α : Type} [BEq α] [LawfulBEq α] {xs ys : List α}

/-- The script that arranges `xs` as `ys`: each element is looked for among
those that are left. -/
def retrace : List α → List α → List ℕ
  | _, [] => []
  | xs, y :: ys => xs.idxOf y :: retrace (xs.erase y) ys

/-- A script is played to its end and arranges all elements. Where none of them
stands twice, the search finds the places that were drawn. -/
theorem exists_select_scripted {places : List ℕ}
    (h : places ∈ scripts xs.length) :
    ∃ ys, select scripted xs places = .ok (ys, []) ∧ ys.Perm xs ∧
      (xs.Nodup → retrace xs ys = places) := by
  induction places generalizing xs with
  | nil =>
      rw [List.length_eq_zero_iff.mp (nil_mem_scripts_iff.mp h)]
      exact ⟨[], by rw [select], .nil, fun _ => rfl⟩
  | cons place later ih =>
      obtain ⟨hplace, hlater⟩ := cons_mem_scripts_iff.mp h
      rw [← List.length_eraseIdx_of_lt hplace] at hlater
      obtain ⟨ys, hselect, hperm, hretrace⟩ := ih hlater
      refine ⟨xs[place] :: ys, select_of_draw hplace rfl hselect,
        (hperm.cons _).trans (List.getElem_cons_eraseIdx_perm hplace), ?_⟩
      intro hnodup
      rw [retrace, hnodup.idxOf_getElem, hnodup.erase_getElem,
        hretrace (hnodup.eraseIdx place)]

/-- Each arrangement is made by the script that it gives back. -/
theorem select_retrace (h : ys.Perm xs) :
    retrace xs ys ∈ scripts xs.length ∧
      select scripted xs (retrace xs ys) = .ok (ys, []) := by
  induction ys generalizing xs with
  | nil =>
      rw [List.nil_perm.mp h]
      exact ⟨nil_mem_scripts_iff.mpr rfl, by rw [retrace, select]⟩
  | cons y ys ih =>
      obtain ⟨hy, hrest⟩ := List.cons_perm_iff_perm_erase.mp h
      have hplace : xs.idxOf y < xs.length := List.idxOf_lt_length_of_mem hy
      obtain ⟨hlater, hselect⟩ := ih hrest
      have hdraw : scripted xs.length (retrace xs (y :: ys)) =
          .ok (xs.idxOf y, retrace (xs.erase y) ys) := rfl
      rw [← List.eraseIdx_idxOf_eq_erase] at hselect hdraw
      have hround := select_of_draw hplace hdraw hselect
      rw [List.getElem_idxOf] at hround
      rw [List.length_erase_of_mem hy] at hlater
      exact ⟨cons_mem_scripts_iff.mpr ⟨hplace, hlater⟩, hround⟩

end select

/-! ## Scripts of drawn places -/

section recorded

variable {α σ : Type} {draw : ℕ → σ → Except Fault (ℕ × σ)}

/-- The places that were drawn are a script for the same selection. -/
theorem select_scripted_of_recorded {xs : List α} {s : σ × List (ℕ × ℕ)}
    {out : List α × σ × List (ℕ × ℕ)}
    (h : select (recorded draw) xs s = .ok out) :
    ∃ draws, out.2.2 = s.2 ++ draws ∧
      select scripted xs (draws.map Prod.snd) = .ok (out.1, []) := by
  fun_induction select (recorded draw) xs s generalizing out with
  | case1 s =>
      cases h
      exact ⟨[], by simp, by rw [List.map_nil, select]⟩
  | case2 => cases h
  | case3 => cases h
  | case4 s first others i t hdraw hi rest u hrest ih =>
      cases h
      obtain ⟨draws, hwritten, hselect⟩ := ih hrest
      refine ⟨((first :: others).length, i) :: draws, ?_,
        select_of_draw hi rfl hselect⟩
      rw [hwritten, recorded_eq_ok hdraw]
      simp
  | case5 => cases h

/-- Lengths that count down to one, with places below them, are a script. -/
theorem map_snd_mem_scripts {n : ℕ} {draws : List (ℕ × ℕ)}
    (hlengths : draws.map Prod.fst = (List.range n).map (n - ·))
    (hplaces : ∀ d ∈ draws, d.2 < d.1) : draws.map Prod.snd ∈ scripts n := by
  have hlength : draws.length = n := by
    simpa using congrArg List.length hlengths
  refine ⟨by rw [List.length_map, hlength], fun k hk => ?_⟩
  rw [List.length_map] at hk
  have hleft : draws[k].1 = n - k := by
    have := List.getElem_of_eq hlengths (i := k) (by simpa using hk)
    simpa using this
  rw [List.getElem_map, ← hleft]
  exact hplaces _ (List.getElem_mem hk)

end recorded

theorem Order.eq_of_select {α : Type} {draw : ℕ → α → Except Fault (ℕ × α)}
    {names : List String} {s t t' : α} {o o' : Order}
    (h : select draw names s = .ok (o.names, t))
    (h' : select draw names s = .ok (o'.names, t')) : o = o' := by
  have hboth := h.symm.trans h'
  rw [Except.ok.injEq, Prod.mk.injEq] at hboth
  exact congrArg Order.mk hboth.1

/-- **Every order comes from one list of draws.** The scripts for a pool and the
orders of its names are one to one: a script makes an order, and the order and
the pool give the script back. A shuffle plays such a script, that of the places
it draws below the number of names, then below one less, and so on down to 1. -/
theorem Pool.shuffle_retraced (p : Pool) :
    (∃ orders : scripts p.size ≃ {o : Order // o.names.Perm p.names},
      (∀ places, select scripted p.names places.1 =
        .ok ((orders places).1.names, [])) ∧
      ∀ o, (orders.symm o).1 = retrace p.names o.1.names) ∧
    ∀ {σ : Type} [WordSource σ] (s : σ), ∃ o t draws,
      p.shuffle s = .ok (o, t) ∧ o.names.Perm p.names ∧
        select (recorded drawBelow) p.names (s, []) =
          .ok (o.names, t, draws) ∧
        draws.map Prod.fst = (List.range p.size).map (p.size - ·) ∧
        draws.map Prod.snd = retrace p.names o.names := by
  have hplay : ∀ places : scripts p.size,
      ∃ o : {o : Order // o.names.Perm p.names},
        select scripted p.names places.1 = .ok (o.1.names, []) ∧
          retrace p.names o.1.names = places.1 := by
    rintro ⟨places, hplaces⟩
    obtain ⟨names, hselect, hperm, hretrace⟩ := exists_select_scripted hplaces
    exact ⟨⟨⟨names⟩, hperm⟩, hselect, hretrace p.nodup⟩
  constructor
  · choose order hselect hretrace using hplay
    let script : {o : Order // o.names.Perm p.names} → scripts p.size :=
      fun o => ⟨retrace p.names o.1.names, (select_retrace o.2).1⟩
    have hleft : Function.LeftInverse script order :=
      fun places => Subtype.ext (hretrace places)
    have hright : Function.RightInverse script order := fun o =>
      Subtype.ext (Order.eq_of_select (hselect (script o)) (select_retrace o.2).2)
    exact ⟨⟨order, script, hleft, hright⟩, hselect, fun o => rfl⟩
  · intro σ _ s
    obtain ⟨o, t, draws, hshuffle, hrecorded, hlengths, hplaces, -⟩ :=
      p.exists_draws s
    obtain ⟨draws', hwritten, hscripted⟩ :=
      select_scripted_of_recorded hrecorded
    obtain rfl : draws = draws' := hwritten
    obtain ⟨⟨o', hperm⟩, hselect, hretrace⟩ :=
      hplay ⟨_, map_snd_mem_scripts hlengths hplaces⟩
    obtain rfl : o = o' := Order.eq_of_select hscripted hselect
    exact ⟨o, t, draws, hshuffle, hperm, hrecorded, hlengths, hretrace.symm⟩

end RollCall

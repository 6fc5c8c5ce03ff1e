import Mathlib.Data.Fintype.EquivFin
import Mathlib.Data.List.FinRange
import RollCall.Proofs.Selection

/-!
# Selection moves places

A selection never looks at what it arranges: renaming the elements before it or
after it comes to the same (`select_map`). So it is enough to arrange the places
themselves. What comes out is a permutation of them, and every list of that
length is arranged by it (`exists_places`).
-/

namespace RollCall

section select

variable {α β σ : Type} {draw : ℕ → σ → Except Fault (ℕ × σ)}

/-- Selection is natural in the elements, whether it runs to its end or not. -/
theorem select_map (f : α → β) (xs : List α) (s : σ) :
    select draw (xs.map f) s =
      (select draw xs s).map fun drawn => (drawn.1.map f, drawn.2) := by
  fun_induction select draw xs s with
  | case1 s =>
      rw [List.map_nil, select]
      rfl
  | case2 s first others fault hfault =>
      have hdraw : draw (f first :: others.map f).length s = .error fault := by
        simpa using hfault
      rw [List.map_cons, select, hdraw]
      rfl
  | case3 s first others i t hdraw hi fault hfault ih =>
      have hdraw' : draw ((first :: others).map f).length s = .ok (i, t) := by
        rwa [List.length_map]
      rw [← List.eraseIdx_map, hfault] at ih
      rw [select_round (by simpa using hi) hdraw', ih]
      rfl
  | case4 s first others i t hdraw hi rest u hrest ih =>
      have hdraw' : draw ((first :: others).map f).length s = .ok (i, t) := by
        rwa [List.length_map]
      rw [← List.eraseIdx_map, hrest] at ih
      rw [select_of_draw (by simpa using hi) hdraw' ih, List.getElem_map]
      rfl
  | case5 s first others i t hdraw hi =>
      -- a place beyond the end is one for both lists, which are equally long
      have hdraw' : draw (f first :: others.map f).length s = .ok (i, t) := by
        simpa using hdraw
      have hi' : ¬ i < (f first :: others.map f).length := by simpa using hi
      rw [List.map_cons, select, hdraw']
      simp only [dif_neg hi']
      simp [Except.map]

end select

/-! ## Permutations of places -/

/-- A list of all places, each once, is a permutation of them. -/
theorem exists_perm_of_finRange {n : ℕ} {ks : List (Fin n)}
    (h : ks.Perm (List.finRange n)) :
    ∃ places : Equiv.Perm (Fin n), ks = List.ofFn places := by
  have hlength : ks.length = n := by simpa using h.length_eq
  have hnodup : ks.Nodup := h.nodup_iff.mpr (List.nodup_finRange n)
  let place : Fin n → Fin n := fun k => ks.get (k.cast hlength.symm)
  have hinj : Function.Injective place := fun j k heq =>
    Fin.cast_injective _ (List.nodup_iff_injective_get.mp hnodup heq)
  refine ⟨Equiv.ofBijective place (Finite.injective_iff_bijective.mp hinj), ?_⟩
  apply List.ext_getElem
  · simp [hlength]
  · simp [place]

/-- One permutation serves all lists of a length, and one state of the source
is left by all of them. -/
theorem exists_places {σ : Type} {draw : ℕ → σ → Except Fault (ℕ × σ)}
    (hdraw : InRange draw) (n : ℕ) (s : σ) :
    ∃ (places : Equiv.Perm (Fin n)) (t : σ),
      ∀ {α : Type} (xs : List α) (hlength : xs.length = n),
        select draw xs s =
          .ok (List.ofFn fun k => xs.get ((places k).cast hlength.symm), t) := by
  obtain ⟨ks, t, hselect, hperm⟩ := exists_select hdraw (List.finRange n) s
  obtain ⟨places, rfl⟩ := exists_perm_of_finRange hperm
  refine ⟨places, t, ?_⟩
  rintro α xs rfl
  have hxs : (List.finRange xs.length).map xs.get = xs :=
    List.map_get_finRange xs
  conv_lhs => rw [← hxs]
  rw [select_map, hselect]
  simp [Except.map, Function.comp_def]

/-! ## Orders -/

theorem Pool.exists_shuffle_places {σ : Type} [WordSource σ] (g : σ) (n : ℕ) :
    ∃ (places : Equiv.Perm (Fin n)) (g' : σ), ∀ p : Pool, p.size = n →
      ∃ o, p.shuffle g = .ok (o, g') ∧ o.size = n ∧
        ∀ k : Fin n, o.get? k = p.names[(places k).val]? := by
  obtain ⟨places, g', hplaces⟩ := exists_places drawBelow_inRange n g
  refine ⟨places, g', fun p hsize => ?_⟩
  have hselect := hplaces p.names hsize
  refine ⟨⟨_⟩, shuffle_eq_ok_iff.mpr hselect, by simp [Order.size],
    fun k => ?_⟩
  have hk : (places k).val < p.names.length := by
    rw [← Pool.size, hsize]
    exact (places k).isLt
  simp [Order.get?, hk]

/-- Which place of the pool a name of the order comes from, said without the
names; beyond the end there is nothing on either side. -/
theorem Order.get?_eq_iff_places {o : Order} {p : Pool} {n : ℕ}
    {places : Equiv.Perm (Fin n)} (hsize : p.size = n) (hlength : o.size = n)
    (hmoved : ∀ k : Fin n, o.get? k = p.names[(places k).val]?) (j k : ℕ) :
    o.get? k = p.names[j]? ↔
      (∃ hk : k < n, (places ⟨k, hk⟩).val = j) ∨ (n ≤ k ∧ n ≤ j) := by
  by_cases hk : k < n
  · have hplace : (places ⟨k, hk⟩).val < p.names.length :=
      hsize.symm ▸ (places ⟨k, hk⟩).isLt
    have hname := hmoved ⟨k, hk⟩
    simp only [hk, Nat.not_le.mpr hk, false_and, or_false, exists_true_left]
    rw [hname, List.getElem?_inj hplace p.nodup]
  · have hnone : o.get? k = none := by
      rw [get?, List.getElem?_eq_none_iff]
      exact hlength.trans_le (Nat.not_lt.mp hk)
    rw [hnone, eq_comm, List.getElem?_eq_none_iff, ← Pool.size, hsize]
    simp [hk, Nat.not_lt.mp hk]

/-- An order holds each name of its pool once and nothing else. -/
theorem Order.count_of_perm {o : Order} {p : Pool} (h : o.names.Perm p.names)
    (name : String) :
    o.names.count name = if name ∈ p.names then 1 else 0 := by
  rw [h.count_eq, p.nodup.count]

/-- **One permutation for all pools.** How many names there are and the state
of the source settle which place goes where, and the state afterwards; the
names have no say in it. So an order holds exactly the names of its pool, and
one seed moves the names of two pools of the same size from the same places to
the same places. -/
theorem Pool.shuffle_places :
    (∀ (g : Keystream) (n : ℕ), ∃ (places : Equiv.Perm (Fin n)) (g' : Keystream),
      ∀ p : Pool, p.size = n → ∃ o, p.shuffle g = .ok (o, g') ∧
        (o.size = n ∧ ∀ k : Fin n, o.get? k = p.names[(places k).val]?) ∧
        ∀ name, o.names.count name = if name ∈ p.names then 1 else 0) ∧
    ∀ (seed : Seed) (p q : Pool), p.size = q.size →
      ∃ o o', Order.ofSeed seed p = .ok o ∧ Order.ofSeed seed q = .ok o' ∧
        ∀ j k : ℕ, o.get? k = p.names[j]? ↔ o'.get? k = q.names[j]? := by
  constructor
  · intro g n
    obtain ⟨places, g', hplaces⟩ := exists_shuffle_places g n
    refine ⟨places, g', fun p hsize => ?_⟩
    obtain ⟨o, hshuffle, hmoved⟩ := hplaces p hsize
    obtain ⟨o', t, hshuffle', hperm⟩ := p.exists_shuffle g
    cases hshuffle.symm.trans hshuffle'
    exact ⟨o, hshuffle, hmoved, Order.count_of_perm hperm⟩
  · intro seed p q hsize
    obtain ⟨places, g', hplaces⟩ :=
      exists_shuffle_places (Keystream.ofSeed seed) p.size
    obtain ⟨o, hshuffle, hlength, hmoved⟩ := hplaces p rfl
    obtain ⟨o', hshuffle', hlength', hmoved'⟩ := hplaces q hsize.symm
    refine ⟨o, o', Order.ofSeed_eq_of_shuffle hshuffle,
      Order.ofSeed_eq_of_shuffle hshuffle', ?_⟩
    intro j k
    rw [Order.get?_eq_iff_places rfl hlength hmoved,
      Order.get?_eq_iff_places hsize.symm hlength' hmoved']

/-- Five letters go where the five standard names go. -/
theorem Pool.shuffle_places_letters :
    let letters : Pool := ⟨["a", "b", "c", "d", "e"], by decide, by decide⟩
    (standard.size = 5 ∧ letters.size = 5) ∧
      (∃ (places : Equiv.Perm (Fin 5)) (g' : Keystream),
        (∃ o, standard.shuffle (Keystream.ofSeed ⟨"alpha"⟩) = .ok (o, g') ∧
          o.get? 0 = standard.names[(places 0).val]?) ∧
        ∃ o, letters.shuffle (Keystream.ofSeed ⟨"alpha"⟩) = .ok (o, g') ∧
          o.get? 0 = letters.names[(places 0).val]?) ∧
      ∃ o o', Order.ofSeed ⟨"alpha"⟩ standard = .ok o ∧
        Order.ofSeed ⟨"alpha"⟩ letters = .ok o' ∧
        (o.get? 0 = some "Keith" ↔ o'.get? 0 = some "b") := by
  intro letters
  obtain ⟨hplaces, htwo⟩ := shuffle_places
  refine ⟨⟨rfl, rfl⟩, ?_, ?_⟩
  · obtain ⟨places, g', hpool⟩ := hplaces (Keystream.ofSeed ⟨"alpha"⟩) 5
    obtain ⟨o, hshuffle, ⟨-, hmoved⟩, -⟩ := hpool standard rfl
    obtain ⟨o', hshuffle', ⟨-, hmoved'⟩, -⟩ := hpool letters rfl
    exact ⟨places, g', ⟨o, hshuffle, hmoved 0⟩, o', hshuffle', hmoved' 0⟩
  · obtain ⟨o, o', ho, ho', hmoved⟩ := htwo ⟨"alpha"⟩ standard letters rfl
    exact ⟨o, o', ho, ho', hmoved 1 0⟩

end RollCall

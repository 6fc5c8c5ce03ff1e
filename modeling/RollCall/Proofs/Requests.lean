import RollCall.Proofs.Draws
import RollCall.Proofs.Streams

/-!
# Requests to one keystream

A keystream is asked for places and for orders, one after another. Each request
takes the words next to those that the one before it has taken, and they alone
decide its answer (`Request.AnsweredFrom`); so all that passes between a
keystream and those who ask is a transcript of its row of words
(`Transcript.of_standsAt`). A request that fails takes no word, so it can be
left out (`replies_filter`). Several keystreams, copied from one another at any
moment, know nothing of each other (`answersOf_perform`).
-/

namespace RollCall

/-! ## Words and answers -/

/-- The words of one number draw a place below `len`, or those of two where the
first leaves the place open. -/
inductive DrawnFrom (w : Width) (len : ℕ) : List UInt32 → ℕ → Prop
  | once {x : List UInt32} (hx : x.length = w.size)
      (hmore : ¬ w.AsksMore len (numeral x)) :
      DrawnFrom w len x (numeral x * len / w.span)
  | twice {x y : List UInt32} (hx : x.length = w.size) (hy : y.length = w.size)
      (hmore : w.AsksMore len (numeral x)) :
      DrawnFrom w len (x ++ y) (w.product len (numeral x) (numeral y))

/-- The words of one draw after another arrange a list. -/
inductive SelectedFrom {α : Type} : List α → List UInt32 → List α → Prop
  | nil : SelectedFrom [] [] []
  | cons {xs ys : List α} {words later : List UInt32} {i : ℕ}
      (hi : i < xs.length)
      (hdraw : DrawnFrom (.ofLength xs.length) xs.length words i)
      (hrest : SelectedFrom (xs.eraseIdx i) later ys) :
      SelectedFrom xs (words ++ later) (xs[i] :: ys)

/-- What a source is asked for: a place below a length, or an order of a pool.
Lengths are numbers of 64 bits, and so are the sizes of pools. -/
inductive Request where
  | place (len : UInt64)
  | order (p : Pool) (hsize : p.size < 2 ^ 64)
  deriving DecidableEq

/-- What the source answers. -/
inductive Answer where
  | place (i : ℕ)
  | order (o : Order)
  deriving DecidableEq

/-- The answer to a request, and the source after it. A fault leaves the source
as it was. -/
def Request.reply {σ : Type} [WordSource σ] :
    Request → σ → Except Fault Answer × σ
  | .place len, s =>
      match drawBelow len.toNat s with
      | .ok (i, t) => (.ok (.place i), t)
      | .error fault => (.error fault, s)
  | .order p _, s =>
      match p.shuffle s with
      | .ok (o, t) => (.ok (.order o), t)
      | .error fault => (.error fault, s)

/-- The words that a request takes, and the answer that they make. -/
inductive Request.AnsweredFrom :
    Request → List UInt32 → Except Fault Answer → Prop
  | fault : AnsweredFrom (.place 0) [] (.error .emptyRange)
  | place {len : UInt64} {words : List UInt32} {i : ℕ} (hlen : len ≠ 0)
      (hdraw : DrawnFrom (.ofLength len.toNat) len.toNat words i) :
      AnsweredFrom (.place len) words (.ok (.place i))
  | order {p : Pool} {hsize : p.size < 2 ^ 64} {words : List UInt32}
      {names : List String} (hselect : SelectedFrom p.names words names) :
      AnsweredFrom (.order p hsize) words (.ok (.order ⟨names⟩))

/-- How many words a request may take. -/
def Request.Takes : Request → ℕ → Prop
  | .place len, n =>
      if len = 0 then n = 0
      else if len.toNat < 2 ^ 32 then n = 1 ∨ n = 2
      else n = 2 ∨ n = 4
  | .order p _, n => p.size < 2 ^ 32 → p.size ≤ n ∧ n ≤ 2 * p.size - 1

/-! ## How many words -/

section length

variable {w : Width} {len i : ℕ} {words : List UInt32}

theorem DrawnFrom.length_eq (h : DrawnFrom w len words i) :
    words.length = w.size ∨ words.length = 2 * w.size := by
  cases h with
  | once hx => exact Or.inl hx
  | twice hx hy =>
      rw [List.length_append, hx, hy, Nat.two_mul]
      exact Or.inr rfl

/-- A draw below one leaves nothing open. -/
theorem DrawnFrom.length_of_one (h : DrawnFrom w 1 words i) :
    words.length = w.size := by
  cases h with
  | once hx => exact hx
  | @twice x y hx hy hmore =>
      have hlow := Nat.mod_lt (numeral x * 1) w.span_pos
      rw [Width.AsksMore] at hmore
      omega

theorem SelectedFrom.length_bounds {α : Type} {xs ys : List α}
    (h : SelectedFrom xs words ys) (hsize : xs.length < 2 ^ 32) :
    xs.length ≤ words.length ∧ words.length ≤ 2 * xs.length - 1 := by
  induction h with
  | nil => exact ⟨le_rfl, le_rfl⟩
  | @cons xs ys words later i hi hdraw hrest ih =>
      have hlength := length_eraseIdx_add_one hi
      have hlater := ih (by omega)
      rw [Width.ofLength_of_lt hsize] at hdraw
      have hwords : words.length = 1 ∨ words.length = 2 := hdraw.length_eq
      have hlast : xs.length = 1 → words.length = 1 := by
        intro hone
        rw [hone] at hdraw
        exact hdraw.length_of_one
      rw [List.length_append]
      omega

theorem Request.AnsweredFrom.takes {r : Request} {a : Except Fault Answer}
    (h : r.AnsweredFrom words a) : r.Takes words.length := by
  cases h with
  | fault => exact rfl
  | @place len words i hlen hdraw =>
      rw [Takes, if_neg hlen]
      split_ifs with hnarrow
      · rw [Width.ofLength_of_lt hnarrow] at hdraw
        exact hdraw.length_eq
      · rw [Width.ofLength_of_not_lt hnarrow] at hdraw
        exact hdraw.length_eq
  | order hselect => exact hselect.length_bounds

end length

/-! ## What a source answers -/

section source

variable {σ : Type} [WordSource σ]

/-- A number of two words may begin with the last word of one block and end with
the first word of the next. -/
example (key : Vector UInt32 8) :
    numeral (Keystream.stretch key 15 2) = (ChaCha20.block key 0)[15].toNat +
      2 ^ 32 * (ChaCha20.block key 1)[0].toNat := rfl

/-- A draw takes the words that draw its place. -/
theorem exists_drawnFrom {len : ℕ} (hlen : 0 < len) (hmax : len < 2 ^ 64)
    (s : σ) : ∃ n i, i < len ∧ drawBelow len s = .ok (i, past n s) ∧
      DrawnFrom (.ofLength len) len (ahead n s) i := by
  have hdraw := drawBelow_eq_product hlen hmax s rfl rfl rfl
  have hspan := (Width.lt_span_ofLength hmax).le
  generalize Width.ofLength len = w at *
  have hx := length_ahead w.size s
  have hy := length_ahead w.size (past w.size s)
  have hlt := w.product_lt hlen (Width.numeral_lt hx) (Width.numeral_lt hy)
  -- the long product looks at a second number even where it is not taken
  by_cases hmore : w.AsksMore len (numeral (ahead w.size s))
  · rw [if_pos hmore] at hdraw
    refine ⟨2 * w.size, _, hlt, hdraw, ?_⟩
    rw [Nat.two_mul, ahead_add]
    exact .twice hx hy hmore
  · rw [if_neg hmore] at hdraw
    refine ⟨w.size, _, hlt, hdraw, ?_⟩
    rw [Width.product_of_not_asksMore hmore hlen hspan (Width.numeral_lt hy)]
    exact .once hx hmore

/-- A selection takes the words of its draws, one after the other. -/
theorem exists_selectedFrom {α : Type} {xs : List α} (hsize : xs.length < 2 ^ 64)
    (s : σ) : ∃ n ys, select drawBelow xs s = .ok (ys, past n s) ∧
      SelectedFrom xs (ahead n s) ys := by
  induction hn : xs.length generalizing xs s with
  | zero =>
      rw [List.length_eq_zero_iff.mp hn]
      exact ⟨0, [], by rw [select, past], .nil⟩
  | succ n ih =>
      obtain ⟨m, i, hi, hdraw, hdrawn⟩ := exists_drawnFrom (by omega) hsize s
      have hlength := length_eraseIdx_add_one hi
      obtain ⟨k, ys, hrest, hselected⟩ :=
        ih (by omega : (xs.eraseIdx i).length < 2 ^ 64) (past m s) (by omega)
      rw [← past_add] at hrest
      refine ⟨m + k, xs[i] :: ys, select_of_draw hi hdraw hrest, ?_⟩
      rw [ahead_add]
      exact .cons hi hdrawn hselected

/-- Whatever a request is, the words next to come make its answer, as many as it
takes. -/
theorem Request.exists_answeredFrom (r : Request) (s : σ) :
    ∃ n, (r.reply s).2 = past n s ∧
      r.AnsweredFrom (ahead n s) (r.reply s).1 := by
  cases r with
  | place len =>
      by_cases hlen : len = 0
      · subst hlen
        exact ⟨0, rfl, .fault⟩
      · have hpos : 0 < len.toNat := by
          rw [Nat.pos_iff_ne_zero, Ne, ← UInt64.toNat_zero, UInt64.toNat_inj]
          exact hlen
        obtain ⟨n, i, -, hdraw, hdrawn⟩ :=
          exists_drawnFrom hpos len.toNat_lt s
        refine ⟨n, ?_⟩
        rw [reply, hdraw]
        exact ⟨rfl, .place hlen hdrawn⟩
  | order p hsize =>
      obtain ⟨n, names, hselect, hselected⟩ :=
        exists_selectedFrom hsize s
      rw [← Pool.shuffle_eq_ok_iff] at hselect
      refine ⟨n, ?_⟩
      rw [reply, hselect]
      exact ⟨rfl, .order hselected⟩

/-- The answers to requests made one after another, and the source that they
leave. -/
def replies : List Request → σ → List (Except Fault Answer) × σ
  | [], s => ([], s)
  | r :: rest, s =>
      let first := r.reply s
      let later := replies rest first.2
      (first.1 :: later.1, later.2)

/-- Only a place below zero is asked for in vain, and it leaves the source as it
was. -/
theorem Request.reply_cases (r : Request) (s : σ) :
    r = .place 0 ∧ r.reply s = (.error .emptyRange, s) ∨
      r ≠ .place 0 ∧ ∃ a, (r.reply s).1 = .ok a := by
  by_cases hr : r = .place 0
  · subst hr
    exact Or.inl ⟨rfl, rfl⟩
  · obtain ⟨n, -, hanswer⟩ := r.exists_answeredFrom s
    refine Or.inr ⟨hr, ?_⟩
    generalize ahead n s = words, (r.reply s).1 = a at hanswer
    cases hanswer with
    | fault => exact absurd rfl hr
    | place => exact ⟨_, rfl⟩
    | order => exact ⟨_, rfl⟩

/-- Without the requests that fail, the others are answered as they were. -/
theorem replies_filter (requests : List Request) (s : σ) :
    replies (requests.filter (· ≠ .place 0)) s =
      ((replies requests s).1.filter Except.isOk, (replies requests s).2) := by
  induction requests generalizing s with
  | nil => rfl
  | cons r rest ih =>
      rcases r.reply_cases s with ⟨rfl, hreply⟩ | ⟨hr, a, ha⟩
      · rw [List.filter_cons_of_neg (by simp), ih, replies, hreply]
        rfl
      · rw [List.filter_cons_of_pos (by simpa using hr), replies, ih, replies, ha]
        rfl

/-! ## Copies -/

/-- What is done with several sources: one of them is asked, or copied. -/
inductive Act where
  | ask (k : ℕ) (r : Request)
  | copy (k : ℕ)

/-- The answers with the sources that gave them, and the sources in the end. A
copy comes last in the list; an act on a source that is not there is passed
over. -/
def perform : List Act → List σ → List (ℕ × Except Fault Answer) × List σ
  | [], sources => ([], sources)
  | .ask k r :: later, sources =>
      match sources[k]? with
      | none => perform later sources
      | some s =>
          let first := r.reply s
          let rest := perform later (sources.set k first.2)
          ((k, first.1) :: rest.1, rest.2)
  | .copy k :: later, sources =>
      match sources[k]? with
      | none => perform later sources
      | some s => perform later (sources ++ [s])

/-- What one source is asked, in order. -/
def requestsTo (k : ℕ) : List Act → List Request
  | [] => []
  | .ask j r :: later =>
      if j = k then r :: requestsTo k later else requestsTo k later
  | .copy _ :: later => requestsTo k later

/-- What one source answers, in order. -/
def answersOf (k : ℕ) (answers : List (ℕ × Except Fault Answer)) :
    List (Except Fault Answer) :=
  (answers.filter (·.1 = k)).map (·.2)

theorem answersOf_cons_self (k : ℕ) (a : Except Fault Answer)
    (answers : List (ℕ × Except Fault Answer)) :
    answersOf k ((k, a) :: answers) = a :: answersOf k answers := by
  simp [answersOf]

theorem answersOf_cons_of_ne {j k : ℕ} (h : j ≠ k) (a : Except Fault Answer)
    (answers : List (ℕ × Except Fault Answer)) :
    answersOf k ((j, a) :: answers) = answersOf k answers := by
  simp [answersOf, h]

/-- A source answers what it is asked, whatever is done with the others. -/
theorem answersOf_perform {sources : List σ} {k : ℕ} {s : σ}
    (h : sources[k]? = some s) (acts : List Act) :
    answersOf k (perform acts sources).1 =
      (replies (requestsTo k acts) s).1 := by
  induction acts generalizing sources s with
  | nil => rfl
  | cons act later ih =>
      cases act with
      | ask j r =>
          by_cases hj : j = k
          · subst hj
            have hj : j < sources.length := (List.getElem?_eq_some_iff.mp h).1
            rw [perform, h, requestsTo, if_pos rfl, replies,
              answersOf_cons_self, ih (List.getElem?_set_self hj)]
          · rw [requestsTo, if_neg hj]
            cases hsource : sources[j]? with
            | none =>
                rw [perform, hsource]
                exact ih h
            | some t =>
                rw [perform, hsource, answersOf_cons_of_ne hj]
                apply ih
                rw [List.getElem?_set_ne hj, h]
      | copy j =>
          cases hsource : sources[j]? with
          | none =>
              rw [perform, hsource]
              exact ih h
          | some t =>
              have hk : k < sources.length := (List.getElem?_eq_some_iff.mp h).1
              rw [perform, hsource]
              apply ih
              rw [List.getElem?_append_left hk, h]

end source

/-! ## Transcripts -/

/-- Requests and answers in turn, from position `p` in a row of words to
position `q`: each request begins where the one before it has ended. -/
inductive Transcript (key : Vector UInt32 8) :
    ℕ → List Request → List (Except Fault Answer) → ℕ → Prop
  | nil (p : ℕ) : Transcript key p [] [] p
  | cons {p n q : ℕ} {r : Request} {a : Except Fault Answer}
      {requests : List Request} {answers : List (Except Fault Answer)}
      (hanswer : r.AnsweredFrom (Keystream.stretch key p n) a)
      (htakes : r.Takes n)
      (hlater : Transcript key (p + n) requests answers q) :
      Transcript key p (r :: requests) (a :: answers) q

theorem Transcript.of_standsAt {k : Keystream} {key : Vector UInt32 8} {p : ℕ}
    (h : k.StandsAt key p) (requests : List Request) :
    ∃ q, Transcript key p requests (replies requests k).1 q ∧
      (replies requests k).2.StandsAt key q := by
  induction requests generalizing k p with
  | nil => exact ⟨p, .nil p, h⟩
  | cons r rest ih =>
      obtain ⟨n, hpast, hanswer⟩ := r.exists_answeredFrom k
      rw [h.ahead_eq] at hanswer
      have htakes := hanswer.takes
      rw [Keystream.length_stretch] at htakes
      have hnext : (r.reply k).2.StandsAt key (p + n) := hpast ▸ h.past n
      obtain ⟨q, hlater, hlast⟩ := ih hnext
      exact ⟨q, .cons hanswer htakes hlater, hlast⟩

namespace Keystream

/-- **A keystream is one row of words.** The bytes of the digest, four to a
word and the least significant first, are the key of the row. All that the
keystream answers stands in a transcript of the row from position 0 on. Requests
that fail take no words, so without them the others are answered as they were,
and leave the keystream at the same place. A copy, taken at any moment, goes on
as the keystream itself would have, and so does the keystream, whatever is asked
of either. -/
theorem replies_transcript (d : Digest) (requests : List Request) :
    (∃ key : Vector UInt32 8,
      (∀ i : Fin 8, key[i].toNat = Nat.ofDigits 256
        (((d.bytes.toList.drop (4 * i)).take 4).map UInt8.toNat)) ∧
      ∃ q, Transcript key 0 requests (replies requests (ofDigest d)).1 q) ∧
      replies (requests.filter (· ≠ .place 0)) (ofDigest d) =
        ((replies requests (ofDigest d)).1.filter Except.isOk,
          (replies requests (ofDigest d)).2) ∧
      ∀ (keystreams : List Keystream) (k : ℕ) (g : Keystream),
        keystreams[k]? = some g → ∀ later : List Act,
          let out := perform (.copy k :: later) keystreams
          let copy := keystreams.length
          answersOf copy out.1 = (replies (requestsTo copy later) g).1 ∧
            answersOf k out.1 = (replies (requestsTo k later) g).1 := by
  refine ⟨?_, replies_filter requests (ofDigest d), ?_⟩
  · obtain ⟨q, htranscript, -⟩ :=
      Transcript.of_standsAt (ofDigest_standsAt d) requests
    exact ⟨(ofDigest d).key, fun i => toNat_key d i.isLt, q, htranscript⟩
  · intro keystreams k g hg later out copy
    have hk : k < keystreams.length := (List.getElem?_eq_some_iff.mp hg).1
    have hout : out = perform later (keystreams ++ [g]) := by
      show perform (.copy k :: later) keystreams = _
      rw [perform, hg]
    rw [hout]
    constructor
    · exact answersOf_perform List.getElem?_concat_length later
    · apply answersOf_perform
      rw [List.getElem?_append_left hk, hg]

/-- The keystream of a seed, by the words of its key: a failing request between
others, and a copy that is asked while the keystream goes on. A place below
`2 ^ 32` is the high word of its number; the number of the last one begins with
the last word of block 0 and ends with the first word of block 1. -/
theorem replies_transcript_copied :
    let g := ofSeed ⟨"alpha"⟩
    let key := #v[0xADF6D38E, 0x9E955B68, 0x512270AD, 0x6CF71A8E,
      0xE8F816D8, 0xDACD7CEC, 0x8E01D41E, 0xF823228F]
    let requests : List Request :=
      [.place 5, .place 0] ++ List.replicate 8 (.place 0x100000000)
    let places := [2, 0x269D11D9, 0xD7BDA8AE, 0x1A104267, 0x0F82893D,
      0x1E3F5079, 0x8F94A2C1, 0x4E065FE6, 0xE3776680]
    let answers : List (Except Fault Answer) :=
      (places.map fun i => .ok (.place i)).insertIdx 1 (.error .emptyRange)
    let acts : List Act := [.copy 0, .ask 0 (.place 9), .ask 1 (.place 5),
      .ask 0 (.order Pool.standard (by decide)), .ask 1 (.place 0)]
    [g][0]? = some g ∧
      (∃ q, Transcript key 0 requests answers q) ∧
      answersOf 1 (perform acts [g]).1 =
        (replies [.place 5, .place 0] g).1 := by
  intro g key requests places answers acts
  obtain ⟨⟨key', hkey, htranscript⟩, -, hcopy⟩ :=
    replies_transcript (Seed.digest ⟨"alpha"⟩) requests
  have hwords : key' = key := by
    apply Vector.ext
    intro i hi
    rw [← UInt32.toNat_inj]
    refine (hkey ⟨i, hi⟩).trans ?_
    revert i
    decide +kernel
  have hanswers : (replies requests (ofSeed ⟨"alpha"⟩)).1 = answers := by
    decide +kernel
  rw [hwords] at htranscript
  exact ⟨rfl, hanswers ▸ htranscript, (hcopy [g] 0 g rfl _).1⟩

end Keystream

end RollCall

import Shorthand.Proofs.Reader.Abbreviation

/-!
# What readers see

A reader that succeeds goes ahead: it takes the characters that come next and leaves the others
(`Cursor.Passes`). What it makes of them does not depend on what was before, and hardly on what comes
behind. It does the same in front of more text,

* always, if it stopped at the end of something: a literal, a payload, an attribute list;
* if it did not stop at the end of the text, since it looks at one character only to see that it has
  to stop;
* and outside of lists and payloads also at the end, in front of a `)`: the end of the text and the
  end of a group stop the same readers.
-/

namespace Shorthand

open Text

/-! ### Readers in general -/

namespace Text

/-- Where there is no next character, a further text has to stop the class. -/
theorem Stops.extend {p : Char → Bool} {rest tail : List Char} (h : Stops p rest)
    (htail : rest ≠ [] ∨ Stops p tail) : Stops p (rest ++ tail) := by
  rcases htail with hne | htail
  · intro x hx
    rw [List.head?_append_of_ne_nil _ hne] at hx
    exact h x hx
  · exact h.append htail

/-- Inside of something that has an end of its own, there always is a next character. -/
theorem Stops.inside {p : Char → Bool} {rest : List Char} (h : Stops p rest) (tail : List Char)
    (hne : rest ≠ [] ∨ False) : Stops p (rest ++ tail) :=
  h.extend (hne.imp_right False.elim)

theorem stops_dropWhile (p : Char → Bool) (cs : List Char) : Stops p (cs.dropWhile p) := by
  intro x hx
  have hnot := List.head?_dropWhile_not p cs
  rw [hx] at hnot
  simpa using hnot

end Text

theorem ForestEnd.stops {tail : List Char} (h : ForestEnd tail) {p : Char → Bool}
    (hp : p ')' = false) : Stops p tail := by
  intro x hx
  rw [h x hx]
  exact hp

namespace Cursor

variable {α β : Type} {reader : Cursor → Except Failure (α × Cursor)} {E F : List Char → Prop}
  {c c' : Cursor} {a : α}

/-- From `c` to `c'` the reader took some characters and gave `a`. It does the same with these
characters wherever they are, in front of what came next and any `tail` behind that. Where nothing
came next, the tail has to be one of `E`. -/
def Passes (reader : Cursor → Except Failure (α × Cursor)) (E : List Char → Prop) (c : Cursor) (a : α)
    (c' : Cursor) : Prop :=
  ∃ taken, c.rest = taken ++ c'.rest ∧ c'.before = taken.reverse ++ c.before ∧
    ∀ tail, c'.rest ≠ [] ∨ E tail → Reads reader taken a (c'.rest ++ tail)

theorem Passes.weaken (h : Passes reader E c a c') (hE : ∀ tail, F tail → E tail) :
    Passes reader F c a c' := by
  obtain ⟨taken, hrest, hbefore, hreads⟩ := h
  exact ⟨taken, hrest, hbefore, fun tail htail => hreads tail (htail.imp_right (hE tail))⟩

/-- The reader took nothing. -/
theorem passes_nothing
    (h : ∀ tail, c.rest ≠ [] ∨ E tail → ∀ d : Cursor, d.rest = c.rest ++ tail → reader d = .ok (a, d)) :
    Passes reader E c a c :=
  ⟨[], rfl, rfl, fun tail htail d hd => ⟨d, h tail htail d hd, hd⟩⟩

/-- One reader after the other, in front of a text that has the property `S`. -/
theorem Passes.andThen {b : β} {c₁ : Cursor} {next : Cursor → Except Failure (β × Cursor)}
    {S : List Char → Prop} (h : Passes reader E c a c₁) (hnext : Passes next F c₁ b c')
    (hE : ∀ tail, F tail → c₁.rest ≠ [] ∨ E tail)
    (hS : ∀ tail, c.rest ≠ [] ∨ F tail → S (c.rest ++ tail))
    (reader' : Cursor → Except Failure (β × Cursor))
    (hreader : ∀ d d', S d.rest → reader d = .ok (a, d') → reader' d = next d') :
    Passes reader' F c b c' := by
  obtain ⟨taken, hrest, hbefore, hreads⟩ := h
  obtain ⟨more, hrest', hbefore', hreads'⟩ := hnext
  refine ⟨taken ++ more, by simp [hrest, hrest'], by simp [hbefore, hbefore'], ?_⟩
  intro tail htail d hd
  have hfirst : c₁.rest ≠ [] ∨ E tail := by
    rcases htail with hne | htail
    · exact Or.inl (by simp [hrest', hne])
    · exact hE tail htail
  obtain ⟨d₁, hd₁, hmore⟩ := hreads tail hfirst d (by simp [hd, hrest'])
  obtain ⟨d', hd', hend⟩ := hreads' tail htail d₁ (by simp [hmore, hrest'])
  have hguard : S d.rest := by
    have hsame : d.rest = c.rest ++ tail := by simp [hd, hrest, hrest']
    rw [hsame]
    exact hS tail (htail.imp_left fun hne => by simp [hrest, hrest', hne])
  exact ⟨d', (hreader d d₁ hguard hd₁).trans hd', hend⟩

theorem Passes.bind {b : β} {c₁ : Cursor} {next : Cursor → Except Failure (β × Cursor)}
    (h : Passes reader E c a c₁) (hnext : Passes next F c₁ b c')
    (hE : ∀ tail, F tail → c₁.rest ≠ [] ∨ E tail)
    (reader' : Cursor → Except Failure (β × Cursor))
    (hreader : ∀ d d', reader d = .ok (a, d') → reader' d = next d') : Passes reader' F c b c' :=
  h.andThen (S := fun _ => True) hnext hE (fun _ _ => trivial) reader' fun d d' _ => hreader d d'

/-- Another result for the same characters. -/
theorem Passes.guarded {b : β} {S : List Char → Prop} (h : Passes reader E c a c')
    (hS : ∀ tail, c.rest ≠ [] ∨ E tail → S (c.rest ++ tail))
    (reader' : Cursor → Except Failure (β × Cursor))
    (hreader : ∀ d d', S d.rest → reader d = .ok (a, d') → reader' d = .ok (b, d')) :
    Passes reader' E c b c' :=
  h.andThen (passes_nothing fun _ _ _ _ => rfl) (fun _ => Or.inr) hS reader' hreader

theorem Passes.map {b : β} (h : Passes reader E c a c')
    (reader' : Cursor → Except Failure (β × Cursor))
    (hreader : ∀ d d', reader d = .ok (a, d') → reader' d = .ok (b, d')) :
    Passes reader' E c b c' :=
  h.guarded (S := fun _ => True) (fun _ _ => trivial) reader' fun d d' _ => hreader d d'

/-- The reader took one character and went on behind it. -/
theorem Passes.char {x : Char} (next : Cursor → Except Failure (α × Cursor))
    (hx : c.rest.head? = some x) (hnext : Passes next E c.advance a c')
    (hreader : ∀ d : Cursor, d.rest.head? = some x → reader d = next d.advance) :
    Passes reader E c a c' := by
  obtain ⟨rest, hc⟩ : ∃ rest, c.rest = x :: rest := by
    cases hrest : c.rest with
    | nil => simp [hrest] at hx
    | cons y rest => exact ⟨rest, by simpa [hrest] using hx⟩
  have hadvance : c.advance = c.past [x] rest := by simp [advance, hc]
  obtain ⟨taken, hrest, hbefore, hreads⟩ := hnext
  rw [hadvance] at hrest hbefore
  refine ⟨x :: taken, by rw [hc]; simpa using hrest, by simpa using hbefore, fun tail htail d hd => ?_⟩
  rw [List.cons_append] at hd
  obtain ⟨d', hd', hend⟩ := hreads tail htail d.advance (rest_advance hd)
  exact ⟨d', (hreader d (by simp [hd])).trans hd', hend⟩

/-- A reader that went ahead is further on in the text. -/
theorem Passes.pos_lt (h : Passes reader E c a c') (hlt : c'.rest.length < c.rest.length) :
    c.pos < c'.pos := by
  obtain ⟨taken, hrest, hbefore, -⟩ := h
  cases taken with
  | nil => simp [hrest] at hlt
  | cons x taken =>
      have hx := Char.utf8Size_pos x
      simp only [pos, hbefore, List.reverse_cons, byteLength_append, byteLength_cons, byteLength_nil]
      omega

theorem eat?_some {p : Char → Bool} (h : c.eat? p = some c') :
    (∃ x, c.rest.head? = some x ∧ p x = true) ∧ c' = c.advance := by
  unfold eat? at h
  unfold advance
  split at h
  · simp at h
  · next x rest hrest =>
    split at h
    · next hx => exact ⟨⟨x, by simp [hrest], hx⟩, (Option.some.inj h).symm⟩
    · simp at h

theorem stops_of_eat? {p : Char → Bool} (h : c.eat? p = none) : Stops p c.rest := by
  unfold eat? at h
  split at h
  · next hrest => simp [hrest, Stops]
  · next x rest hrest =>
    rw [hrest]
    refine .cons (Bool.eq_false_iff.2 fun hx => ?_) rest
    simp [hx] at h

theorem eat?_of_head {p : Char → Bool} {x : Char} (hx : c.rest.head? = some x) (hp : p x = true) :
    c.eat? p = some c.advance := by
  cases hrest : c.rest with
  | nil => simp [hrest] at hx
  | cons y rest =>
      obtain rfl : y = x := by simpa [hrest] using hx
      simp [eat?, advance, hrest, hp]

theorem skip_of_stops {p : Char → Bool} (h : Stops p c.rest) : c.skip p = c := by
  obtain ⟨before, rest, mark⟩ := c
  cases rest with
  | nil => rfl
  | cons x rest =>
      have hx := h x rfl
      simp [skip, run, past, hx]

/-- A run takes what it reads, and stops in front of everything that stops it. -/
theorem passes_run (p : Char → Bool) (c : Cursor) :
    Passes (fun c => .ok (c.run p)) (Stops p) c (c.run p).1 (c.run p).2 := by
  refine ⟨c.rest.takeWhile p, List.takeWhile_append_dropWhile.symm, rfl, ?_⟩
  intro tail htail d hd
  have hall : ∀ x ∈ c.rest.takeWhile p, p x = true :=
    List.all_eq_true.1 List.all_takeWhile
  obtain ⟨htoken, hrest⟩ := run_eq hall ((stops_dropWhile p c.rest).extend htail) hd
  exact ⟨(d.run p).2, congrArg Except.ok (Prod.ext htoken rfl), hrest⟩

theorem passes_takeRun (p : Char → Bool) (c : Cursor) :
    Passes (fun c => .ok (c.takeRun p)) (Stops p) c (c.takeRun p).1 (c.takeRun p).2 := by
  obtain ⟨taken, hrest, hbefore, hreads⟩ := passes_run p { c with mark := c.before }
  refine ⟨taken, hrest, hbefore, fun tail htail d hd => ?_⟩
  exact hreads tail htail { d with mark := d.before } hd

end Cursor

open Cursor

/-! ### Literals, payloads and repeats -/

namespace Literal

theorem passes_read {c c' : Cursor} {text : String} (h : read c = .ok (some text, c')) :
    Passes read (fun _ => True) c (some text) c' := by
  unfold read at h
  split at h
  · simp at h
  · next quote rest hrest =>
    split at h
    · next hq =>
      split at h
      · simp [Cursor.failAtEnd] at h
      · next body rest' hscan =>
        simp only [Except.ok.injEq, Prod.mk.injEq, Option.some.injEq] at h
        obtain ⟨rfl, rfl⟩ := h
        refine ⟨quote :: body ++ [quote], ?_, rfl, fun tail _ d hd => ?_⟩
        · rw [hrest, scan_eq_some hscan]
          simp
        · have hd : d.rest = quote :: (body ++ quote :: (rest' ++ tail)) := by simpa using hd
          have hscan' := (body_of_scan hscan).scan_eq (ne_backslash_of_isQuote hq) (rest' ++ tail)
          refine ⟨d.past (quote :: body ++ [quote]) (rest' ++ tail), ?_, rfl⟩
          simp only [read, hd, hq, hscan', if_true]
    · simp at h

theorem stops_of_read {c c' : Cursor} (h : read c = .ok (none, c')) : Stops isQuote c.rest := by
  unfold read at h
  split at h
  · next hrest => simp [hrest, Stops]
  · next x rest hrest =>
    split at h
    · split at h <;> simp [Cursor.failAtEnd] at h
    · next hx =>
      rw [hrest]
      exact .cons (by simpa using hx) rest

end Literal

namespace Payload

theorem passes_read {c c' : Cursor} {text : String} (h : read c = .ok (some text, c')) :
    Passes read (fun _ => True) c (some text) c' := by
  have hbalanced := balanced_of_read h
  unfold read at h
  split at h
  · simp at h
  · next x rest hrest =>
    split at h
    · next hx =>
      split at h
      · next body rest' hsearch =>
        simp only [Except.ok.injEq, Prod.mk.injEq, Option.some.injEq] at h
        obtain ⟨rfl, rfl⟩ := h
        obtain ⟨body', hbody, hcs⟩ := search_eq_closed hsearch
        obtain rfl : body = body' := by simpa using hbody
        rw [String.toList_ofList] at hbalanced
        refine ⟨x :: body ++ ['\x7d'], by rw [hrest, hcs]; simp, rfl, fun tail _ d hd => ?_⟩
        have hd : d.rest = x :: (body ++ '\x7d' :: (rest' ++ tail)) := by simpa using hd
        refine ⟨d.past (x :: body ++ ['\x7d']) (rest' ++ tail), ?_, rfl⟩
        simp only [read, hd, hx, hbalanced.search_closed, if_true]
      · simp [Cursor.failAtEnd] at h
      · simp [Cursor.failAtEnd] at h
    · simp at h

theorem stops_of_read {c c' : Cursor} (h : read c = .ok (none, c')) :
    Stops (· == '\x7b') c.rest := by
  unfold read at h
  split at h
  · next hrest => simp [hrest, Stops]
  · next x rest hrest =>
    split at h
    · split at h <;> simp [Cursor.failAtEnd] at h
    · next hx =>
      rw [hrest]
      exact .cons (by simpa using hx) rest

theorem read_of_stops {c : Cursor} (h : Stops (· == '\x7b') c.rest) : read c = .ok (none, c) := by
  refine read_none fun hx => ?_
  exact absurd (h _ hx) (by decide)

end Payload

namespace Repeat

theorem passes_read (c : Cursor) : Passes (fun c => .ok (read c)) ForestEnd c (read c).1 (read c).2 := by
  cases heat : c.eat? (· == '*') with
  | none =>
      have hread : read c = (none, c) := by simp [read, heat]
      rw [hread]
      refine passes_nothing fun tail htail d hd => ?_
      have hstop : Stops (· == '*') d.rest := by
        rw [hd]
        exact (stops_of_eat? heat).extend (htail.imp_right fun h => h.stops (by decide))
      simp [read, eat?_eq_none hstop]
  | some c₁ =>
      obtain ⟨⟨x, hx, hstar⟩, rfl⟩ := eat?_some heat
      have hread : ∀ d : Cursor, d.rest.head? = some x → read d =
          (some { count := countOf (d.advance.takeRun Numeral.isDigit).1 },
            (d.advance.takeRun Numeral.isDigit).2) := by
        intro d hd
        have heat' : d.eat? (· == '*') = some d.advance := eat?_of_head hd hstar
        simp [read, heat']
      have hdigits := (passes_takeRun Numeral.isDigit c.advance).weaken (F := ForestEnd)
        fun tail htail => htail.stops (by decide)
      rw [hread c hx]
      refine Passes.char _ hx (hdigits.map (fun d =>
        .ok (some { count := countOf (d.takeRun Numeral.isDigit).1 },
          (d.takeRun Numeral.isDigit).2)) ?_) fun d hd => by rw [hread d hd]
      intro d d' hd
      simp only [Except.ok.injEq] at hd ⊢
      simp [hd]

end Repeat

/-! ### Attribute lists -/

namespace Attribute

theorem readUnquotedFrom_none {token : String} {c c' : Cursor} (h : Payload.read c = .ok (none, c')) :
    readUnquotedFrom token c = .ok (token, c) := by
  rw [readUnquotedFrom.eq_def]
  split <;> simp_all

theorem readUnquotedFrom_some {token text : String} {c c' : Cursor}
    (h : Payload.read c = .ok (some text, c')) :
    readUnquotedFrom token c = readUnquotedFrom
      (token ++ "\x7b" ++ text ++ "\x7d" ++ String.ofList (c'.run isUnquotedChar).1)
      (c'.run isUnquotedChar).2 := by
  rw [readUnquotedFrom.eq_def]
  split
  · next herr => simp [h] at herr
  · next hnone => simp [h] at hnone
  · next text' c₁ hsome =>
    obtain ⟨rfl, rfl⟩ : text' = text ∧ c₁ = c' := by simpa [h, eq_comm] using hsome
    rfl

theorem passes_readUnquotedFrom {token token' : String} {c c' : Cursor}
    (h : readUnquotedFrom token c = .ok (token', c')) :
    Passes (readUnquotedFrom token) (fun _ => False) c token' c' := by
  fun_induction readUnquotedFrom token c with
  | case1 => simp at h
  | case2 token c c₁ hread =>
      simp only [Except.ok.injEq, Prod.mk.injEq] at h
      obtain ⟨rfl, rfl⟩ := h
      refine passes_nothing fun tail htail d hd => ?_
      refine readUnquotedFrom_none (Payload.read_of_stops ?_)
      rw [hd]
      exact (Payload.stops_of_read hread).extend (htail.imp_right False.elim)
  | case3 token c text c₁ hread more ih =>
      refine (Payload.passes_read hread).bind ((passes_run isUnquotedChar c₁).bind (ih h)
        (fun _ => False.elim) (fun d => readUnquotedFrom
          (token ++ "\x7b" ++ text ++ "\x7d" ++ String.ofList (d.run isUnquotedChar).1)
          (d.run isUnquotedChar).2) ?_) (fun _ => False.elim) _ fun d d' hd => readUnquotedFrom_some hd
      intro d d' hd
      simp only [Except.ok.injEq] at hd
      simp only [hd]
      rfl

theorem passes_readUnquoted {token : String} {c c' : Cursor} (h : readUnquoted c = .ok (token, c')) :
    Passes readUnquoted (fun _ => False) c token c' := by
  have hrun := (passes_run isUnquotedChar c).weaken (F := fun _ => False) fun _ => False.elim
  simp only [readUnquoted] at h
  split at h
  · next hempty =>
    simp only [Except.ok.injEq, Prod.mk.injEq] at h
    obtain ⟨rfl, rfl⟩ := h
    refine hrun.map readUnquoted fun d d' hd => ?_
    simp only [Except.ok.injEq] at hd
    simp only [readUnquoted, hd, hempty, if_true]
  · next hempty =>
    refine hrun.bind (passes_readUnquotedFrom h) (fun _ => False.elim) _ fun d d' hd => ?_
    simp only [Except.ok.injEq] at hd
    simp only [readUnquoted, hd]
    rw [if_neg hempty]

/-- Behind a `=`, what is next decides which of the three readers takes the value. -/
theorem passes_readValue {value : String × Bool} {c c' : Cursor} (h : readValue c = .ok (value, c')) :
    Passes readValue (fun _ => False) c value c' := by
  cases takesValue_of_readValue h with
  | literal hread =>
      refine ((Literal.passes_read hread).weaken fun _ => False.elim).map _ fun d d' hd => ?_
      simp [readValue, hd, bind, Except.bind, pure, Except.pure]
  | expression hquote hread =>
      have hstop := (Literal.stops_of_read hquote).inside
      refine ((Payload.passes_read hread).weaken fun _ => False.elim).guarded hstop _
        fun d d' hd hread => ?_
      simp [readValue, Literal.read_none hd, hread, bind, Except.bind, pure, Except.pure]
  | token hquote hbrace hread =>
      -- The token is read after two readers that looked at the same character and took nothing.
      have hstop := (Literal.stops_of_read hquote).inside
      have hstop' := (Payload.stops_of_read hbrace).inside
      refine (passes_readUnquoted hread).guarded (S := fun cs => Stops Literal.isQuote cs ∧
        Stops (· == '\x7b') cs) (fun tail hne => ⟨hstop tail hne, hstop' tail hne⟩) _
        fun d d' hd hread => ?_
      simp [readValue, Literal.read_none hd.1, Payload.read_of_stops hd.2, hread, bind, Except.bind,
        pure, Except.pure]

/-- An attribute with the value that was read behind its name. -/
def withValue (written : WrittenName) (value : String × Bool) : Attribute :=
  { make (some (String.ofList written.name)) (some value.1) with
    options := if value.2 then .expression written.boolean written.implied
      else .plain written.boolean written.implied }

theorem readNamed_eq_bind {written : WrittenName} {c c₁ : Cursor}
    (heat : c.eat? (· == '=') = some c₁) :
    readNamed written c = (readValue c₁).map fun v => (withValue written v.1, v.2) := by
  simp only [readNamed, heat, bind, Except.bind, pure, Except.pure]
  cases readValue c₁ with
  | error failure => rfl
  | ok v =>
      obtain ⟨⟨text, expression⟩, c₂⟩ := v
      cases expression <;> rfl

theorem passes_readNamed {written : WrittenName} {a : Attribute} {c c' : Cursor}
    (h : readNamed written c = .ok (a, c')) :
    Passes (readNamed written) (fun _ => False) c a c' := by
  cases heat : c.eat? (· == '=') with
  | none =>
      simp only [readNamed, heat, Except.ok.injEq, Prod.mk.injEq] at h
      obtain ⟨rfl, rfl⟩ := h
      refine passes_nothing fun tail htail d hd => ?_
      have hstop : Stops (· == '=') d.rest := by
        rw [hd]
        exact (stops_of_eat? heat).extend (htail.imp_right False.elim)
      simp only [readNamed, eat?_eq_none hstop]
  | some c₁ =>
      rw [readNamed_eq_bind heat] at h
      obtain ⟨⟨x, hx, heq⟩, rfl⟩ := eat?_some heat
      cases hval : readValue c.advance with
      | error failure => simp [hval, Except.map] at h
      | ok v =>
          simp only [hval, Except.map, Except.ok.injEq, Prod.mk.injEq] at h
          obtain ⟨rfl, rfl⟩ := h
          refine Passes.char _ hx ((passes_readValue hval).map (fun d =>
            (readValue d).map fun v => (withValue written v.1, v.2)) ?_) ?_
          · intro d d' hd
            simp [hd, Except.map]
          · exact fun d hd => readNamed_eq_bind (eat?_of_head hd heq)

theorem readEntry_skip (c : Cursor) : readEntry (c.skip isWhiteSpace) = readEntry c := by
  have hskip : (c.skip isWhiteSpace).skip isWhiteSpace = c.skip isWhiteSpace :=
    skip_of_stops (stops_dropWhile _ _)
  simp only [readEntry, hskip]

/-- White space in front of an entry is passed over. -/
theorem passes_skip {a : Option Attribute} {c c' : Cursor} {E : List Char → Prop}
    (h : Passes readEntry E (c.skip isWhiteSpace) a c')
    (hE : ∀ tail, E tail → (c.skip isWhiteSpace).rest ≠ []) : Passes readEntry E c a c' := by
  refine (passes_run isWhiteSpace c).bind h (fun tail htail => Or.inl (hE tail htail)) _ ?_
  intro d d' hd
  have hskip : d.skip isWhiteSpace = d' := by
    simp only [Except.ok.injEq] at hd
    simp [Cursor.skip, hd]
  rw [← hskip, readEntry_skip]

/-- The text goes on with an entry: neither with white space nor with the end of the list. -/
def EntryStart (cs : List Char) : Prop :=
  Stops isWhiteSpace cs ∧ Stops (· == ']') cs

/-- The text goes on with an entry that is an unquoted token. -/
def TokenStart (cs : List Char) : Prop :=
  EntryStart cs ∧ Stops Literal.isQuote cs

theorem EntryStart.inside {cs : List Char} (h : EntryStart cs) (tail : List Char)
    (hne : cs ≠ [] ∨ False) : EntryStart (cs ++ tail) :=
  ⟨h.1.inside tail hne, h.2.inside tail hne⟩

theorem TokenStart.inside {cs : List Char} (h : TokenStart cs) (tail : List Char)
    (hne : cs ≠ [] ∨ False) : TokenStart (cs ++ tail) :=
  ⟨h.1.inside tail hne, h.2.inside tail hne⟩

/-- A value without a name ends an entry. -/
theorem readEntry_eq_anonymous {token : String} {c c' : Cursor} (hstart : TokenStart c.rest)
    (hread : readUnquoted c = .ok (token, c')) (hne : token ≠ "")
    (hname : writtenName? token.toList = none) : readEntry c = .ok (some (anonymous token), c') := by
  simp only [readEntry, skip_of_stops hstart.1.1, eat?_eq_none hstart.1.2,
    Literal.read_none hstart.2, hread, if_neg hne, hname, bind, Except.bind, pure, Except.pure]

/-- Behind a name, an entry goes on with what belongs to it. -/
theorem readEntry_eq_map {token : String} {written : WrittenName} {c c₁ : Cursor}
    (hstart : TokenStart c.rest) (hread : readUnquoted c = .ok (token, c₁)) (hne : token ≠ "")
    (hname : writtenName? token.toList = some written) :
    readEntry c = (readNamed written c₁).map fun v => (some v.1, v.2) := by
  simp only [readEntry, skip_of_stops hstart.1.1, eat?_eq_none hstart.1.2,
    Literal.read_none hstart.2, hread, if_neg hne, hname, bind, Except.bind, pure, Except.pure]
  cases readNamed written c₁ <;> rfl

/-- **An entry** is read the same inside any other list. -/
theorem passes_readEntry {a : Attribute} {c c' : Cursor} (h : readEntry c = .ok (some a, c')) :
    Passes readEntry (fun _ => False) c (some a) c' := by
  refine passes_skip ?_ fun _ => False.elim
  obtain ⟨heat, htakes⟩ := takesEntry_of_readEntry h
  have hspace : Stops isWhiteSpace (c.skip isWhiteSpace).rest := stops_dropWhile _ _
  -- From here on the white space is behind, and what is next decides how the entry is read.
  generalize c.skip isWhiteSpace = c at heat htakes hspace
  have hstart : EntryStart c.rest := ⟨hspace, stops_of_eat? heat⟩
  cases htakes with
  | literal hread =>
      refine ((Literal.passes_read hread).weaken fun _ => False.elim).guarded hstart.inside _
        fun d d' hd hread => ?_
      simp [readEntry, skip_of_stops hd.1, eat?_eq_none hd.2, hread, bind, Except.bind, pure,
        Except.pure]
  | token hquote hread hne hname =>
      have htoken : TokenStart c.rest := ⟨hstart, Literal.stops_of_read hquote⟩
      exact (passes_readUnquoted hread).guarded htoken.inside _
        fun d d' hd hread => readEntry_eq_anonymous hd hread hne hname
  | named hquote hread hne hname hnamed =>
      have htoken : TokenStart c.rest := ⟨hstart, Literal.stops_of_read hquote⟩
      refine (passes_readUnquoted hread).andThen ((passes_readNamed hnamed).map _ ?_)
        (fun _ => False.elim) htoken.inside _ fun d d' hd hread => readEntry_eq_map hd hread hne hname
      intro d d' hd
      simp [hd, Except.map]

/-- The end of a list is the same whatever follows it. -/
theorem passes_readEntry_none {c c' : Cursor} (h : readEntry c = .ok (none, c')) :
    Passes readEntry (fun _ => True) c none c' := by
  obtain ⟨⟨x, hx, hclose⟩, rfl⟩ := eat?_some (eat?_of_readEntry_none h)
  refine passes_skip ?_ fun _ _ hnil => by simp [hnil] at hx
  refine Passes.char (fun d => .ok (none, d)) hx (passes_nothing fun _ _ _ _ => rfl) ?_
  intro d hd
  have hspace : Stops isWhiteSpace d.rest := by
    intro y hy
    obtain rfl : y = x := by simpa [hd] using hy.symm
    obtain rfl : y = ']' := by simpa using hclose
    decide
  have heat' : d.eat? (· == ']') = some d.advance := eat?_of_head hd hclose
  simp [readEntry, skip_of_stops hspace, heat']

theorem rest_ne_nil_of_readEntries {found list : List Attribute} {c c' : Cursor}
    (h : readEntries found c = .ok (list, c')) : c.rest ≠ [] := by
  rw [readEntries_eq] at h
  intro hnil
  split at h
  · simp at h
  · next hentry => simpa [hnil] using length_rest_of_readEntry_none hentry
  · next hentry => simpa [hnil] using length_rest_of_readEntry hentry

theorem passes_readEntries {found list : List Attribute} {c c' : Cursor}
    (h : readEntries found c = .ok (list, c')) :
    Passes (readEntries found) (fun _ => True) c list c' := by
  fun_induction readEntries found c with
  | case1 => simp at h
  | case2 found c c₁ hentry =>
      simp only [Except.ok.injEq, Prod.mk.injEq] at h
      obtain ⟨rfl, rfl⟩ := h
      refine (passes_readEntry_none hentry).map _ fun d d' hd => ?_
      rw [readEntries_eq, hd]
  | case3 found c a c₁ hentry ih =>
      refine (passes_readEntry hentry).bind (ih h)
        (fun _ _ => Or.inl (rest_ne_nil_of_readEntries h)) _ fun d d' hd => ?_
      rw [readEntries_eq, hd]

theorem passes_readList {list : List Attribute} {c c' : Cursor}
    (h : readList c = .ok (some list, c')) :
    Passes readList (fun _ => True) c (some list) c' := by
  simp only [readList, bind, Except.bind, pure, Except.pure] at h
  split at h
  · simp at h
  next heat =>
    split at h
    · simp at h
    next hentries =>
      simp only [Except.ok.injEq, Prod.mk.injEq, Option.some.injEq] at h
      obtain ⟨rfl, rfl⟩ := h
      obtain ⟨⟨x, hx, hopen⟩, rfl⟩ := eat?_some heat
      refine Passes.char (fun d => (readEntries [] d).map fun v => (some v.1, v.2)) hx
        ((passes_readEntries hentries).map _ fun d d' hd => by simp [hd, Except.map]) ?_
      intro d hd
      have heat' : d.eat? (· == '[') = some d.advance := eat?_of_head hd hopen
      simp only [readList, heat', bind, Except.bind, pure, Except.pure]
      cases readEntries [] d.advance <;> rfl

end Attribute

end Shorthand

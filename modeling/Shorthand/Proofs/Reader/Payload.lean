import Shorthand.Proofs.Scanner.Values

/-!
# Which payloads are read

A payload is read by counting braces, the grammar of balanced texts counts nothing. The two agree, in
both directions (`read_accepts_balanced`).

What is no payload is refused, and the grammar says why, too. Up to the place where a search gets
stuck it has passed over an `Opened` text: balanced, but for braces that were opened and not closed.
If the next character is a quote without a partner, that literal is to blame; otherwise the text has
come to its end.
-/

namespace Shorthand

open Text

/-! ### Literals that never close -/

namespace Literal

/-- Behind the opening quote, nothing ends the literal. -/
def NeverCloses (quote : Char) (cs : List Char) : Prop :=
  ∀ body rest, Body quote body → cs ≠ body ++ quote :: rest

theorem scan_eq_none_iff {quote : Char} (hq : isQuote quote = true) {cs : List Char} :
    scan quote cs = none ↔ NeverCloses quote cs := by
  constructor
  · rintro hscan body rest hbody rfl
    rw [hbody.scan_eq (ne_backslash_of_isQuote hq)] at hscan
    exact absurd hscan (by simp)
  · intro hnever
    refine Option.eq_none_iff_forall_ne_some.2 fun ⟨text, rest⟩ hscan => ?_
    exact hnever text rest (body_of_scan hscan) (scan_eq_some hscan)

end Literal

namespace Payload

/-! ### Texts with braces left open -/

theorem Balanced.append {front cs : List Char} (h : Balanced front) (hcs : Balanced cs) :
    Balanced (front ++ cs) := by
  induction h with
  | nil => exact hcs
  | plain hq hs _ ih => exact .plain hq hs ih
  | escaped c _ ih => exact .escaped c ih
  | literal hq hbody _ ih => simpa using Balanced.literal hq hbody ih
  | braces hbody _ _ ih => simpa using Balanced.braces hbody ih

/-- Balanced texts with opening braces between them. -/
inductive Opened : List Char → Prop where
  | balanced {cs : List Char} (all : Balanced cs) : Opened cs
  | brace {front cs : List Char} (before : Balanced front) (rest : Opened cs) :
      Opened (front ++ '\x7b' :: cs)

theorem Opened.prepend {front cs : List Char} (h : Opened cs) (hfront : Balanced front) :
    Opened (front ++ cs) := by
  cases h with
  | balanced hcs => exact .balanced (hfront.append hcs)
  | brace hbefore hrest => simpa using Opened.brace (hfront.append hbefore) hrest

/-- Such a text is passed over as a whole, and its braces stay open. -/
theorem Opened.search_eq {front : List Char} (h : Opened front) :
    ∃ depth, ∀ inner passed tail, search inner passed (front ++ tail) =
      search (inner + depth) (front.reverse ++ passed) tail := by
  induction h with
  | balanced hall => exact ⟨0, fun inner passed tail => hall.search_eq inner passed tail⟩
  | @brace front cs hbefore _ ih =>
      obtain ⟨depth, ih⟩ := ih
      refine ⟨depth + 1, fun inner passed tail => ?_⟩
      have htext : front ++ '\x7b' :: cs ++ tail = front ++ '\x7b' :: (cs ++ tail) := by simp
      have hdepth : inner + 1 + depth = inner + (depth + 1) := by omega
      rw [htext, hbefore.search_eq, search_open, ih, hdepth]
      simp

/-- What a search passes over that sets out with `inner` open braces: of these it may see some closed,
each behind a balanced text, and then none any more. -/
def Leads : (inner : Nat) → List Char → Prop
  | 0, cs => Opened cs
  | inner + 1, cs =>
    Opened cs ∨ ∃ front back, cs = front ++ '\x7d' :: back ∧ Balanced front ∧ Leads inner back

theorem Opened.leads {cs : List Char} (h : Opened cs) (inner : Nat) : Leads inner cs := by
  cases inner with
  | zero => exact h
  | succ inner => exact Or.inl h

theorem Leads.prepend {inner : Nat} {front cs : List Char} (h : Leads inner cs)
    (hfront : Balanced front) : Leads inner (front ++ cs) := by
  cases inner with
  | zero => exact Opened.prepend h hfront
  | succ inner =>
      rcases h with h | ⟨front', back, rfl, hfront', hback⟩
      · exact Or.inl (h.prepend hfront)
      · exact Or.inr ⟨front ++ front', back, by simp, hfront.append hfront', hback⟩

/-- An opening brace is closed again, or it stays open. -/
theorem Leads.brace {inner : Nat} {cs : List Char} (h : Leads (inner + 1) cs) :
    Leads inner ('\x7b' :: cs) := by
  rcases h with h | ⟨front, back, rfl, hfront, hback⟩
  · exact (Opened.brace .nil h).leads inner
  · simpa using hback.prepend (.braces hfront .nil)

/-! ### Searches that get stuck -/

/-- On the way through the text there is a quote that opens a literal which never closes. -/
def MeetsOpenLiteral (quote : Char) (cs : List Char) : Prop :=
  Literal.isQuote quote = true ∧
    ∃ front rest, cs = front ++ quote :: rest ∧ Opened front ∧ Literal.NeverCloses quote rest

theorem search_openLiteral {quote : Char} (hq : Literal.isQuote quote = true) {cs : List Char}
    (h : Literal.NeverCloses quote cs) (inner : Nat) (passed : List Char) :
    search inner passed (quote :: cs) = .openLiteral quote (quote :: passed) cs := by
  have hscan := (Literal.scan_eq_none_iff hq).2 h
  rw [search.eq_def]
  simp only [hq, if_true]
  split
  · rfl
  · next hsome => simp [hscan] at hsome

theorem leads_of_search {inner : Nat} {passed cs all rest : List Char} {quote : Char}
    (h : search inner passed cs = .openLiteral quote all rest) :
    Literal.isQuote quote = true ∧ Literal.NeverCloses quote rest ∧
      ∃ front, cs = front ++ quote :: rest ∧ Leads inner front := by
  -- Each step of the search puts one piece in front of what the rest of it passes over.
  fun_induction search inner passed cs with
  | case1 => simp at h
  | case2 inner passed c cs hq hscan =>
      cases h
      exact ⟨hq, (Literal.scan_eq_none_iff hq).1 hscan, [], rfl, Opened.leads (.balanced .nil) inner⟩
  | case3 inner passed c cs hq text rest' hscan ih =>
      obtain ⟨hquote, hnever, front, rfl, hfront⟩ := ih h
      have hpiece : Balanced (c :: text ++ [c]) := .literal hq (Literal.body_of_scan hscan) .nil
      refine ⟨hquote, hnever, c :: text ++ [c] ++ front, ?_, hfront.prepend hpiece⟩
      simp [Literal.scan_eq_some hscan]
  | case4 inner passed cs _ ih =>
      obtain ⟨hquote, hnever, front, rfl, hfront⟩ := ih h
      exact ⟨hquote, hnever, '\x7b' :: front, rfl, hfront.brace⟩
  | case5 => simp at h
  | case6 passed cs inner _ _ ih =>
      obtain ⟨hquote, hnever, front, rfl, hfront⟩ := ih h
      exact ⟨hquote, hnever, '\x7d' :: front, rfl, Or.inr ⟨[], front, rfl, .nil, hfront⟩⟩
  | case7 => simp at h
  | case8 inner passed d cs _ _ _ ih =>
      obtain ⟨hquote, hnever, front, rfl, hfront⟩ := ih h
      exact ⟨hquote, hnever, '\\' :: d :: front, rfl, hfront.prepend (.escaped d .nil)⟩
  | case9 inner passed c cs hq hopen hclose hback ih =>
      obtain ⟨hquote, hnever, front, rfl, hfront⟩ := ih h
      have hpiece : Balanced [c] := .plain (by simpa using hq) (by simp [hopen, hclose, hback]) .nil
      exact ⟨hquote, hnever, c :: front, rfl, hfront.prepend hpiece⟩

/-! ### How a search ends -/

theorem search_eq_closed_iff {cs text rest : List Char} :
    search 0 [] cs = .closed text rest ↔ Balanced text ∧ cs = text ++ '\x7d' :: rest := by
  constructor
  · intro h
    obtain ⟨body, hbody, hcs⟩ := search_eq_closed h
    obtain rfl : text = body := by simpa using hbody
    exact ⟨balanced_of_search h, hcs⟩
  · rintro ⟨hbalanced, rfl⟩
    exact hbalanced.search_closed rest

theorem search_eq_openLiteral_iff {cs : List Char} {quote : Char} :
    (∃ passed rest, search 0 [] cs = .openLiteral quote passed rest) ↔ MeetsOpenLiteral quote cs := by
  constructor
  · rintro ⟨passed, rest, h⟩
    obtain ⟨hquote, hnever, front, hcs, hfront⟩ := leads_of_search h
    exact ⟨hquote, front, rest, hcs, hfront, hnever⟩
  · rintro ⟨hquote, front, rest, rfl, hfront, hnever⟩
    obtain ⟨depth, hsearch⟩ := hfront.search_eq
    rw [hsearch, search_openLiteral hquote hnever]
    exact ⟨_, _, rfl⟩

theorem search_eq_unclosed_iff {cs : List Char} :
    (∃ passed, search 0 [] cs = .unclosed passed) ↔
      (∀ text rest, Balanced text → cs ≠ text ++ '\x7d' :: rest) ∧
        ∀ quote, ¬MeetsOpenLiteral quote cs := by
  have hclosed : (∀ text rest, Balanced text → cs ≠ text ++ '\x7d' :: rest) ↔
      ∀ text rest, search 0 [] cs ≠ .closed text rest := by
    simp [search_eq_closed_iff]
  simp only [hclosed, ← search_eq_openLiteral_iff]
  cases search 0 [] cs with
  | closed text rest => simp
  | unclosed passed => simp
  | openLiteral quote passed rest => simp

/-! ### How reading ends -/

section Read

variable {c : Cursor} {cs : List Char}

theorem read_closed (hc : c.rest = '\x7b' :: cs) {text rest : List Char}
    (h : search 0 [] cs = .closed text rest) :
    read c = .ok (some (String.ofList text), c.past ('\x7b' :: text ++ ['\x7d']) rest) := by
  rw [read_eq_result hc, h, Search.result, Cursor.past_past]
  rfl

/-- What is refused is refused at the end of the text. -/
theorem read_unclosed (hc : c.rest = '\x7b' :: cs) {passed : List Char}
    (h : search 0 [] cs = .unclosed passed) :
    ∃ stop, read c = .error ⟨.openText, byteLength c.source, stop⟩ := by
  have hsource : ((c.past ['\x7b'] cs).past passed.reverse []).source = c.source := by
    rw [Cursor.source_past (by simp [search_eq_unclosed h]), Cursor.source_past hc]
  refine ⟨(c.past ['\x7b'] cs).past passed.reverse [], ?_⟩
  rw [read_eq_result hc, h, Search.result, Cursor.failAtEnd, hsource]

theorem read_openLiteral (hc : c.rest = '\x7b' :: cs) {quote : Char} {passed rest : List Char}
    (h : search 0 [] cs = .openLiteral quote passed rest) :
    ∃ stop, read c = .error ⟨.openLiteral quote, byteLength c.source, stop⟩ := by
  have hsource : ((c.past ['\x7b'] cs).past passed.reverse rest).source = c.source := by
    rw [Cursor.source_past (by simpa using (search_eq_openLiteral h).symm), Cursor.source_past hc]
  refine ⟨(c.past ['\x7b'] cs).past passed.reverse rest, ?_⟩
  rw [read_eq_result hc, h, Search.result, Cursor.failAtEnd, hsource]

theorem read_openLiteral_iff (hc : c.rest = '\x7b' :: cs) {quote : Char} :
    (∃ stop, read c = .error ⟨.openLiteral quote, byteLength c.source, stop⟩) ↔
      ∃ passed rest, search 0 [] cs = .openLiteral quote passed rest := by
  cases hsearch : search 0 [] cs with
  | closed text rest => simp [read_closed hc hsearch]
  | unclosed passed =>
      obtain ⟨stop, hread⟩ := read_unclosed hc hsearch
      simp [hread]
  | openLiteral quote' passed rest =>
      obtain ⟨stop, hread⟩ := read_openLiteral hc hsearch
      simp [hread]

theorem read_unclosed_iff (hc : c.rest = '\x7b' :: cs) :
    (∃ stop, read c = .error ⟨.openText, byteLength c.source, stop⟩) ↔
      ∃ passed, search 0 [] cs = .unclosed passed := by
  cases hsearch : search 0 [] cs with
  | closed text rest => simp [read_closed hc hsearch]
  | unclosed passed =>
      obtain ⟨stop, hread⟩ := read_unclosed hc hsearch
      simp [hread]
  | openLiteral quote passed rest =>
      obtain ⟨stop, hread⟩ := read_openLiteral hc hsearch
      simp [hread]

/-- **A payload is read where a balanced text stands between braces, and nowhere else.** There is at
most one such text behind an opening brace, and reading it stops right behind the closing brace.
Everything else is refused at the end of the text: because of a literal if one is met that never
closes, and otherwise because the closing brace is missing. -/
theorem read_accepts_balanced (hc : c.rest = '\x7b' :: cs) :
    (∀ text c', read c = .ok (some text, c') ↔
        Balanced text.toList ∧ c.Took ('\x7b' :: text.toList ++ ['\x7d']) c') ∧
      (∀ text text' rest rest', Balanced text → cs = text ++ '\x7d' :: rest →
        Balanced text' → cs = text' ++ '\x7d' :: rest' → text = text') ∧
      (∀ quote, (∃ stop, read c = .error ⟨.openLiteral quote, byteLength c.source, stop⟩) ↔
        MeetsOpenLiteral quote cs) ∧
      ((∃ stop, read c = .error ⟨.openText, byteLength c.source, stop⟩) ↔
        (∀ text rest, Balanced text → cs ≠ text ++ '\x7d' :: rest) ∧
          ∀ quote, ¬MeetsOpenLiteral quote cs) := by
  refine ⟨fun text c' => ⟨fun h => ⟨balanced_of_read h, took_of_read h⟩, ?_⟩, ?_, ?_, ?_⟩
  · rintro ⟨hbalanced, hrest, hpast⟩
    have hcs : cs = text.toList ++ '\x7d' :: c'.rest := by simpa [hc] using hrest
    rw [read_closed hc (search_eq_closed_iff.2 ⟨hbalanced, hcs⟩), ← hpast, String.ofList_toList]
  · intro text text' rest rest' hbalanced hcs hbalanced' hcs'
    have hsearch := search_eq_closed_iff.2 ⟨hbalanced, hcs⟩
    rw [search_eq_closed_iff.2 ⟨hbalanced', hcs'⟩] at hsearch
    exact (Search.closed.inj hsearch).1.symm
  · exact fun quote => (read_openLiteral_iff hc).trans search_eq_openLiteral_iff
  · exact (read_unclosed_iff hc).trans search_eq_unclosed_iff

end Read

/-- The braces inside of a literal and behind a backslash do not count. Where the quote is not
closed, it is met behind a brace that is still open; and a backslash at the end protects nothing. -/
theorem read_accepts_balanced_nested :
    (∃ c', read (.ofString "\x7ba\x7b'\x7d'\\\x7d\x7d\x7d>b") =
        .ok (some "a\x7b'\x7d'\\\x7d\x7d", c') ∧ c'.rest = ['>', 'b']) ∧
      (∃ stop, read (.ofString "\x7ba\x7b\"\x7d") = .error ⟨.openLiteral '"', 5, stop⟩) ∧
      ∃ stop, read (.ofString "\x7ba\\") = .error ⟨.openText, 3, stop⟩ := by
  have hinner : Balanced ('\'' :: ['\x7d'] ++ '\'' :: ['\\', '\x7d']) :=
    .literal rfl (.plain (by decide) (by decide) .nil) (.escaped _ .nil)
  have hbalanced : Balanced "a\x7b'\x7d'\\\x7d\x7d".toList :=
    .plain rfl (by decide) (.braces hinner .nil)
  have hmeets : MeetsOpenLiteral '"' ['a', '\x7b', '"', '\x7d'] :=
    ⟨rfl, ['a', '\x7b'], ['\x7d'], rfl, .brace (.plain rfl (by decide) .nil) (.balanced .nil),
      (Literal.scan_eq_none_iff rfl).1 (by decide)⟩
  have hend : ∃ passed, search 0 [] ['a', '\\'] = .unclosed passed :=
    ⟨['\\', 'a'], by decide +kernel⟩
  refine ⟨?_, ?_, ?_⟩
  · obtain ⟨haccepts, -⟩ :=
      read_accepts_balanced (c := .ofString "\x7ba\x7b'\x7d'\\\x7d\x7d\x7d>b") rfl
    exact ⟨_, (haccepts _ ((Cursor.ofString "").past _ ['>', 'b'])).2 ⟨hbalanced, rfl, rfl⟩, rfl⟩
  · obtain ⟨-, -, hliteral, -⟩ := read_accepts_balanced (c := .ofString "\x7ba\x7b\"\x7d") rfl
    exact (hliteral '"').2 hmeets
  · obtain ⟨-, -, -, htext⟩ := read_accepts_balanced (c := .ofString "\x7ba\\") rfl
    exact htext.2 (search_eq_unclosed_iff.1 hend)

end Payload

end Shorthand

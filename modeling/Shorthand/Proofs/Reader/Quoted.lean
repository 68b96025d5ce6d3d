import Shorthand.Payload.Grammar
import Shorthand.Proofs.Reader.Basic

/-!
# Quoted texts and payloads

What stands between two quotes or two braces is read as the grammar says: a scan stops exactly at the
end of a `Literal.Body`, a search exactly at the end of a `Payload.Balanced` text, and nothing else is
ever read as one.

A text that does not hold the quote that is put around it, and does not end in a backslash that
would protect the closing quote, is written as it is. Any other text is escaped (`Literal.Escapes`),
and since escapes stay in a literal when it is read, `Literal.kept` is what it reads back as.
-/

namespace Shorthand

namespace Literal

/-! ### Literals -/

theorem Body.scanFrom_eq {quote : Char} (hq : quote ≠ '\\') {body : List Char} (h : Body quote body)
    (text rest : List Char) :
    scanFrom quote text (body ++ quote :: rest) = some (text.reverse ++ body, rest) := by
  induction h generalizing text with
  | nil =>
      cases rest with
      | nil => simp [scanFrom, hq]
      | cons d rest => simp [scanFrom, hq]
  | @plain c cs hne hback _ ih =>
      obtain ⟨d, tail, htail⟩ : ∃ d tail, cs ++ quote :: rest = d :: tail :=
        List.exists_cons_of_ne_nil (by simp)
      have hstep : scanFrom quote text (c :: d :: tail) = scanFrom quote (c :: text) (d :: tail) := by
        simp [scanFrom, hne, hback]
      rw [List.cons_append, htail, hstep, ← htail, ih]
      simp
  | @escaped c cs _ ih =>
      have hstep : scanFrom quote text ('\\' :: c :: (cs ++ quote :: rest)) =
          scanFrom quote (c :: '\\' :: text) (cs ++ quote :: rest) := by
        simp [scanFrom]
      rw [List.cons_append, List.cons_append, hstep, ih]
      simp

theorem Body.scan_eq {quote : Char} (hq : quote ≠ '\\') {body : List Char} (h : Body quote body)
    (rest : List Char) : scan quote (body ++ quote :: rest) = some (body, rest) := by
  rw [scan, h.scanFrom_eq hq]
  rfl

theorem body_of_scanFrom {quote : Char} {text cs text' rest : List Char}
    (h : scanFrom quote text cs = some (text', rest)) :
    ∃ body, text' = text.reverse ++ body ∧ Body quote body := by
  fun_induction scanFrom quote text cs with
  | case1 => simp at h
  | case2 text c hc =>
      simp only [Option.some.injEq, Prod.mk.injEq] at h
      exact ⟨[], by simp [← h.1], .nil⟩
  | case3 => simp at h
  | case4 text d cs ih =>
      obtain ⟨body, rfl, hbody⟩ := ih h
      exact ⟨'\\' :: d :: body, by simp, .escaped d hbody⟩
  | case5 text d cs hc =>
      simp only [Option.some.injEq, Prod.mk.injEq] at h
      exact ⟨[], by simp [← h.1], .nil⟩
  | case6 text c d cs hc hq ih =>
      obtain ⟨body, rfl, hbody⟩ := ih h
      exact ⟨c :: body, by simp, .plain hq hc hbody⟩

/-- A scan only ever gives the text of a literal. -/
theorem body_of_scan {quote : Char} {cs text rest : List Char}
    (h : scan quote cs = some (text, rest)) : Body quote text := by
  obtain ⟨body, rfl, hbody⟩ := body_of_scanFrom h
  exact hbody

theorem ne_backslash_of_isQuote {c : Char} (h : isQuote c = true) : c ≠ '\\' := by
  rintro rfl
  exact absurd h (by decide)

/-! ### Writing literals -/

/-- The number of backslashes at the end of a text. -/
def trailingBackslashes (text : List Char) : Nat :=
  (text.reverse.takeWhile (· == '\\')).length

/-- Would the text, followed by a quote, protect that quote? -/
def Dangling (text : List Char) : Prop :=
  trailingBackslashes text % 2 = 1

instance (text : List Char) : Decidable (Dangling text) :=
  inferInstanceAs (Decidable (_ = _))

theorem trailingBackslashes_le (text : List Char) : trailingBackslashes text ≤ text.length := by
  have hle := (List.takeWhile_prefix (l := text.reverse) (· == '\\')).length_le
  rwa [List.length_reverse] at hle

theorem trailingBackslashes_cons (c : Char) (cs : List Char) :
    trailingBackslashes (c :: cs) = if c = '\\' ∧ trailingBackslashes cs = cs.length
      then cs.length + 1 else trailingBackslashes cs := by
  have hlen : cs.reverse.length = cs.length := List.length_reverse
  rw [trailingBackslashes, List.reverse_cons, List.takeWhile_append, hlen, ← trailingBackslashes]
  by_cases hall : trailingBackslashes cs = cs.length
  · by_cases hc : c = '\\'
    · simp [hall, hc]
    · simp [hall, hc]
  · simp only [hall, and_false, if_false]
    rfl

theorem not_dangling_plain {c : Char} {cs : List Char} (hc : c ≠ '\\') (h : ¬Dangling (c :: cs)) :
    ¬Dangling cs := by
  rwa [Dangling, trailingBackslashes_cons, if_neg (by simp [hc])] at h

theorem not_dangling_escaped {d : Char} {cs : List Char} (h : ¬Dangling ('\\' :: d :: cs)) :
    ¬Dangling cs := by
  have hle := trailingBackslashes_le cs
  simp only [Dangling, trailingBackslashes_cons, List.length_cons, true_and] at h ⊢
  by_cases hd : d = '\\'
  · by_cases hall : trailingBackslashes cs = cs.length
    · simp only [hd, hall, true_and, if_true] at h
      omega
    · have hne : ¬trailingBackslashes cs = cs.length + 1 := by omega
      simpa [hd, hall, hne] using h
  · have hne : ¬trailingBackslashes cs = cs.length + 1 := by omega
    simpa [hd, hne] using h

/-- What holds no quote and does not end in a protecting backslash may stand between quotes. -/
theorem body_of_not_mem {quote : Char} :
    ∀ {text : List Char}, quote ∉ text → ¬Dangling text → Body quote text
  | [], _, _ => .nil
  | [c], hq, hd => by
      have hc : c ≠ '\\' := by
        rintro rfl
        exact hd rfl
      exact .plain (by simpa [eq_comm] using hq) hc .nil
  | c :: d :: cs, hq, hd => by
      simp only [List.mem_cons, not_or] at hq
      by_cases hc : c = '\\'
      · subst hc
        exact .escaped d (body_of_not_mem hq.2.2 (not_dangling_escaped hd))
      · refine .plain (Ne.symm hq.1) hc (body_of_not_mem ?_ (not_dangling_plain hc hd))
        simp [hq.2]

theorem Body.escapeFrom_eq {quote : Char} {body : List Char} (h : Body quote body) (done : List Char) :
    escapeFrom quote done false body = done.reverse ++ body := by
  induction h generalizing done with
  | nil => simp [escapeFrom]
  | plain hne hback _ ih => simp [escapeFrom, hne, hback, ih]
  | escaped c _ ih => simp [escapeFrom, ih]

/-- The second text is the first one with its bare quotes escaped, and with a backslash at the end
that protects nothing doubled. -/
inductive Escapes (quote : Char) : List Char → List Char → Prop where
  | nil : Escapes quote [] []
  | dangling : Escapes quote ['\\'] ['\\', '\\']
  | pair (c : Char) {cs ds : List Char} (rest : Escapes quote cs ds) :
      Escapes quote ('\\' :: c :: cs) ('\\' :: c :: ds)
  | bare {cs ds : List Char} (rest : Escapes quote cs ds) :
      Escapes quote (quote :: cs) ('\\' :: quote :: ds)
  | plain {c : Char} (ne_quote : c ≠ quote) (ne_backslash : c ≠ '\\') {cs ds : List Char}
      (rest : Escapes quote cs ds) : Escapes quote (c :: cs) (c :: ds)

theorem escapes_escapeFrom (quote : Char) (done : List Char) (flag : Bool) (text : List Char) :
    ∃ body, escapeFrom quote done flag text = done.reverse ++ body ∧
      Escapes quote (if flag then '\\' :: text else text) (if flag then '\\' :: body else body) := by
  fun_induction escapeFrom quote done flag text with
  | case1 done => exact ⟨[], by simp, .nil⟩
  | case2 done => exact ⟨['\\'], by simp, .dangling⟩
  | case3 done c cs ih =>
      obtain ⟨body, hbody, hrest⟩ := ih
      exact ⟨c :: body, by simp [hbody], .pair c hrest⟩
  | case4 done cs ih =>
      obtain ⟨body, hbody, hrest⟩ := ih
      exact ⟨'\\' :: body, by simp [hbody], hrest⟩
  | case5 done cs _ ih =>
      obtain ⟨body, hbody, hrest⟩ := ih
      exact ⟨'\\' :: quote :: body, by simp [hbody], .bare hrest⟩
  | case6 done c cs hback hquote ih =>
      obtain ⟨body, hbody, hrest⟩ := ih
      exact ⟨c :: body, by simp [hbody], .plain hquote hback hrest⟩

theorem escapes_escape (quote : Char) (text : List Char) : Escapes quote text (escape quote text) := by
  obtain ⟨body, hbody, hescapes⟩ := escapes_escapeFrom quote [] false text
  rw [escape, hbody]
  exact hescapes

namespace Escapes

variable {quote : Char} {cs ds : List Char}

/-- What is escaped may stand between quotes. -/
theorem body (h : Escapes quote cs ds) : Body quote ds := by
  induction h with
  | nil => exact .nil
  | dangling => exact .escaped _ .nil
  | pair c _ ih => exact .escaped c ih
  | bare _ ih => exact .escaped quote ih
  | plain hquote hback _ ih => exact .plain hquote hback ih

theorem subset (h : Escapes quote cs ds) : cs ⊆ ds := by
  induction h with
  | nil => exact List.Subset.refl _
  | dangling => simp
  | pair c _ ih => exact List.cons_subset_cons _ (List.cons_subset_cons _ ih)
  | bare _ ih => exact fun x hx => List.mem_cons_of_mem _ (List.cons_subset_cons _ ih hx)
  | plain _ _ _ ih => exact List.cons_subset_cons _ ih

/-- Only backslashes are put in. -/
theorem count_eq (h : Escapes quote cs ds) {x : Char} (hx : x ≠ '\\') : ds.count x = cs.count x := by
  have hback : ('\\' == x) = false := by simpa using hx.symm
  induction h with
  | nil => rfl
  | dangling => simp [List.count_cons, hback]
  | pair c _ ih => simp [List.count_cons, ih]
  | bare _ ih => simp [List.count_cons, ih, hback]
  | plain _ _ _ ih => simp [List.count_cons, ih]

end Escapes

/-- The text that is read where the given one was written as a literal: what is escaped stays so. -/
def kept (text : String) : String :=
  String.ofList (escape (quoteFor text.toList) text.toList)

theorem escapes_kept (text : String) :
    Escapes (quoteFor text.toList) text.toList (kept text).toList := by
  rw [kept, String.toList_ofList]
  exact escapes_escape _ _

theorem toList_write (text : String) :
    (write text).toList = quoteFor text.toList :: (kept text).toList ++ [quoteFor text.toList] := by
  rw [write, kept, String.toList_ofList, String.toList_ofList]

theorem quoteFor_kept (text : String) : quoteFor (kept text).toList = quoteFor text.toList := by
  have hmem : ∀ x, x ≠ '\\' → (kept text).toList.contains x = text.toList.contains x := by
    intro x hx
    rw [Bool.eq_iff_iff, List.contains_iff_mem, List.contains_iff_mem, ← List.count_pos_iff,
      ← List.count_pos_iff, (escapes_kept text).count_eq hx]
  rw [quoteFor, hmem _ (by decide), hmem _ (by decide), ← quoteFor]

/-- A text that may stand between its quotes is kept as it is. -/
theorem kept_eq_self {text : String} (h : Body (quoteFor text.toList) text.toList) :
    kept text = text := by
  rw [kept, escape, h.escapeFrom_eq, List.reverse_nil, List.nil_append, String.ofList_toList]

theorem kept_kept (text : String) : kept (kept text) = kept text := by
  refine kept_eq_self ?_
  rw [quoteFor_kept]
  exact (escapes_kept text).body

/-- What was kept is written as it was before. -/
theorem write_kept (text : String) : write (kept text) = write text := by
  refine String.toList_inj.1 ?_
  rw [toList_write, toList_write, kept_kept, quoteFor_kept]

/-- Can the text be written between quotes without a change? -/
def Quotable (text : List Char) : Prop :=
  ¬('"' ∈ text ∧ '\'' ∈ text) ∧ ¬Dangling text

instance (text : List Char) : Decidable (Quotable text) :=
  inferInstanceAs (Decidable (¬(_ ∧ _) ∧ ¬_))

theorem Quotable.body {text : List Char} (h : Quotable text) : Body (quoteFor text) text := by
  refine body_of_not_mem ?_ h.2
  have hone := h.1
  simp only [quoteFor, List.contains_iff_mem, Bool.and_eq_true, Bool.not_eq_true']
  split
  · next hq => simpa using hq.2
  · next hq =>
    intro hmem
    refine hq ⟨hmem, ?_⟩
    simpa using fun hs => hone ⟨hmem, hs⟩

theorem Quotable.kept_eq {text : String} (h : Quotable text.toList) : kept text = text :=
  kept_eq_self h.body

theorem isQuote_quoteFor (text : List Char) : isQuote (quoteFor text) = true := by
  rw [quoteFor]
  split <;> rfl

/-- A literal starts with one of the two quotes. -/
theorem stops_write {p : Char → Bool} (hdouble : p '"' = false) (hsingle : p '\'' = false)
    (text : String) : Text.Stops p (write text).toList := by
  rw [write, String.toList_ofList]
  refine .cons ?_ _
  rw [quoteFor]
  split
  · exact hsingle
  · exact hdouble

/-- What stands between quotes is read, and the cursor is then right behind the closing one. -/
theorem Body.read_eq_past {quote : Char} (hq : isQuote quote = true) {text : String}
    (h : Body quote text.toList) {c : Cursor} {rest : List Char}
    (hc : c.rest = quote :: text.toList ++ [quote] ++ rest) :
    read c = .ok (some text, c.past (quote :: text.toList ++ [quote]) rest) := by
  have hscan := h.scan_eq (ne_backslash_of_isQuote hq) rest
  have hrest : c.rest = quote :: (text.toList ++ quote :: rest) := by simpa using hc
  rw [read, hrest]
  simp [hq, hscan]

/-- **A text between quotes reads back.** -/
theorem Body.read_eq {quote : Char} (hq : isQuote quote = true) {text : String}
    (h : Body quote text.toList) (rest : List Char) :
    Cursor.Reads read (quote :: text.toList ++ [quote]) (some text) rest :=
  fun _ hc => ⟨_, h.read_eq_past hq hc, rfl⟩

/-- **A literal reads back** as what is kept of its text. -/
theorem read_write (text : String) (rest : List Char) :
    Cursor.Reads read (write text).toList (some (kept text)) rest := by
  rw [toList_write]
  exact (escapes_kept text).body.read_eq (isQuote_quoteFor _) rest

/-- No literal starts with a character that is no quote. -/
theorem read_none {c : Cursor} (h : Text.Stops isQuote c.rest) : read c = .ok (none, c) := by
  rw [read]
  cases hrest : c.rest with
  | nil => rfl
  | cons x rest =>
      have hx := h x (by simp [hrest])
      simp [hx]

end Literal

namespace Payload

/-! ### Payloads -/

theorem search_plain {c : Char} (hq : Literal.isQuote c = false) (hs : c ∉ ['\x7b', '\x7d', '\\'])
    (inner : Nat) (passed cs : List Char) :
    search inner passed (c :: cs) = search inner (c :: passed) cs := by
  simp only [List.mem_cons, List.not_mem_nil, or_false, not_or] at hs
  rw [search.eq_def]
  simp [hq, hs]

theorem search_escaped (inner : Nat) (passed : List Char) (c : Char) (cs : List Char) :
    search inner passed ('\\' :: c :: cs) = search inner (c :: '\\' :: passed) cs := by
  have hq : Literal.isQuote '\\' = false := by decide
  rw [search.eq_def]
  simp [hq]

theorem search_open (inner : Nat) (passed cs : List Char) :
    search inner passed ('\x7b' :: cs) = search (inner + 1) ('\x7b' :: passed) cs := by
  have hq : Literal.isQuote '\x7b' = false := by decide
  rw [search.eq_def]
  simp [hq]

theorem search_close (inner : Nat) (passed cs : List Char) :
    search (inner + 1) passed ('\x7d' :: cs) = search inner ('\x7d' :: passed) cs := by
  have hq : Literal.isQuote '\x7d' = false := by decide
  rw [search.eq_def]
  simp [hq]

theorem search_closed (passed cs : List Char) :
    search 0 passed ('\x7d' :: cs) = .closed passed.reverse cs := by
  have hq : Literal.isQuote '\x7d' = false := by decide
  rw [search.eq_def]
  simp [hq]

theorem search_literal {quote : Char} (hq : Literal.isQuote quote = true) {body : List Char}
    (hbody : Literal.Body quote body) (inner : Nat) (passed cs : List Char) :
    search inner passed (quote :: (body ++ quote :: cs)) =
      search inner (quote :: body.reverse ++ quote :: passed) cs := by
  have hscan := hbody.scan_eq (Literal.ne_backslash_of_isQuote hq) cs
  rw [search.eq_def]
  simp only [hq, if_true]
  split
  · next hnone => simp [hscan] at hnone
  · next text rest hsome =>
    obtain ⟨rfl, rfl⟩ : text = body ∧ rest = cs := by simpa [hscan, eq_comm] using hsome
    rfl

/-- A balanced text is passed over as a whole. -/
theorem Balanced.search_eq {text : List Char} (h : Balanced text) (inner : Nat)
    (passed tail : List Char) :
    search inner passed (text ++ tail) = search inner (text.reverse ++ passed) tail := by
  induction h generalizing inner passed tail with
  | nil => rfl
  | plain hq hs _ ih =>
      rw [List.cons_append, search_plain hq hs, ih]
      simp
  | escaped c _ ih =>
      rw [List.cons_append, List.cons_append, search_escaped, ih]
      simp
  | @literal quote body cs hq hbody _ ih =>
      have htext : quote :: body ++ quote :: cs ++ tail = quote :: (body ++ quote :: (cs ++ tail)) := by
        simp
      rw [htext, search_literal hq hbody, ih]
      simp
  | @braces body cs _ _ ihbody ih =>
      have htext : '\x7b' :: body ++ '\x7d' :: cs ++ tail =
          '\x7b' :: (body ++ '\x7d' :: (cs ++ tail)) := by simp
      rw [htext, search_open, ihbody, search_close, ih]
      simp

/-- The search from an opening brace ends at the brace that closes it. -/
theorem Balanced.search_closed {text : List Char} (h : Balanced text) (rest : List Char) :
    search 0 [] (text ++ '\x7d' :: rest) = .closed text rest := by
  rw [h.search_eq, Payload.search_closed]
  simp

/-- Balanced texts, with a closing brace behind each but the last: what is left of a payload inside of
which `inner` more braces are open. -/
def Closes : (inner : Nat) → List Char → Prop
  | 0, cs => Balanced cs
  | inner + 1, cs => ∃ front back, cs = front ++ '\x7d' :: back ∧ Balanced front ∧ Closes inner back

/-- What may be put in front of every balanced text may be put in front here. -/
theorem Closes.extend {piece : List Char}
    (h : ∀ {cs : List Char}, Balanced cs → Balanced (piece ++ cs)) :
    ∀ {inner : Nat} {cs : List Char}, Closes inner cs → Closes inner (piece ++ cs)
  | 0, _, hcs => h hcs
  | _ + 1, _, ⟨front, back, hsplit, hfront, hback⟩ =>
      ⟨piece ++ front, back, by simp [hsplit], h hfront, hback⟩

/-- What a search passes over closes the braces that are open around it. -/
theorem closes_of_search {inner : Nat} {passed cs text rest : List Char}
    (h : search inner passed cs = .closed text rest) :
    ∃ body, text = passed.reverse ++ body ∧ Closes inner body := by
  fun_induction search inner passed cs with
  | case1 => simp at h
  | case2 => simp at h
  | case3 inner passed c cs hq text' rest' hscan ih =>
      obtain ⟨body, rfl, hbody⟩ := ih h
      refine ⟨c :: text' ++ c :: body, by simp, ?_⟩
      have hpiece : c :: text' ++ c :: body = (c :: text' ++ [c]) ++ body := by simp
      rw [hpiece]
      refine hbody.extend fun hcs => ?_
      simpa using Balanced.literal hq (Literal.body_of_scan hscan) hcs
  | case4 inner passed cs _ ih =>
      -- The brace that opens here is the first one that is closed behind it.
      obtain ⟨body, rfl, front, back, rfl, hfront, hback⟩ := ih h
      refine ⟨'\x7b' :: (front ++ '\x7d' :: back), by simp, ?_⟩
      have hpiece : '\x7b' :: (front ++ '\x7d' :: back) = ('\x7b' :: front ++ ['\x7d']) ++ back := by
        simp
      rw [hpiece]
      refine hback.extend fun hcs => ?_
      simpa using Balanced.braces hfront hcs
  | case5 passed cs =>
      simp only [Search.closed.injEq] at h
      exact ⟨[], by simp [← h.1], .nil⟩
  | case6 passed cs inner _ _ ih =>
      obtain ⟨body, rfl, hbody⟩ := ih h
      exact ⟨'\x7d' :: body, by simp, [], body, rfl, .nil, hbody⟩
  | case7 => simp at h
  | case8 inner passed d cs _ _ _ ih =>
      obtain ⟨body, rfl, hbody⟩ := ih h
      have hescaped : ∀ {cs : List Char}, Balanced cs → Balanced (['\\', d] ++ cs) := .escaped d
      exact ⟨'\\' :: d :: body, by simp, hbody.extend hescaped⟩
  | case9 inner passed c cs hq hopen hclose hback ih =>
      obtain ⟨body, rfl, hbody⟩ := ih h
      refine ⟨c :: body, by simp, ?_⟩
      have hplain : ∀ {cs : List Char}, Balanced cs → Balanced ([c] ++ cs) :=
        .plain (by simpa using hq) (by simp [hopen, hclose, hback])
      exact hbody.extend hplain

/-- A search only ever gives balanced texts. -/
theorem balanced_of_search {cs text rest : List Char} (h : search 0 [] cs = .closed text rest) :
    Balanced text := by
  obtain ⟨body, rfl, hbody⟩ := closes_of_search h
  exact hbody

theorem balanced_of_read {c c' : Cursor} {text : String} (h : read c = .ok (some text, c')) :
    Balanced text.toList := by
  unfold read at h
  split at h
  · simp at h
  · split at h
    · split at h
      · next hsearch =>
        simp only [Except.ok.injEq, Prod.mk.injEq, Option.some.injEq] at h
        rw [← h.1, String.toList_ofList]
        exact balanced_of_search hsearch
      · simp [Cursor.failAtEnd] at h
      · simp [Cursor.failAtEnd] at h
    · simp at h

/-- **A balanced text reads back from between its braces.** -/
theorem read_braces {text : String} (h : Balanced text.toList) (rest : List Char) :
    Cursor.Reads read ("\x7b" ++ text ++ "\x7d").toList (some text) rest := by
  intro c hc
  have hrest : c.rest = '\x7b' :: (text.toList ++ '\x7d' :: rest) := by simpa using hc
  rw [read, hrest]
  simp [h.search_closed rest]

/-- No payload starts with a character that is no opening brace. -/
theorem read_none {c : Cursor} (h : c.rest.head? ≠ some '\x7b') : read c = .ok (none, c) := by
  rw [read]
  cases hrest : c.rest with
  | nil => rfl
  | cons x rest =>
      have hx : x ≠ '\x7b' := by simpa [hrest] using h
      simp [hx]

end Payload

end Shorthand

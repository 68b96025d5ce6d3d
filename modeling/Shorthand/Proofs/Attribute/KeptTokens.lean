import Shorthand.Proofs.Attribute.TokenSet
import Shorthand.Proofs.Reader.Quoted

/-!
# Tokens between quotes

The tokens of a class are written with single spaces between them. Escapes never touch these spaces,
so what a literal keeps of the text is cut into as many words as there are tokens. The words need
not be distinct: `x"` turns into `x\"`, which may be another token. Then tokens are lost when the
literal is read, and with them some of the spaces.
-/

namespace Shorthand

namespace Text

/-- The text is its words with single spaces between them. -/
def Spaced (cs : List Char) : Prop :=
  [' '].intercalate (words cs) = cs

theorem spaced_intercalate {ws : List (List Char)} (h : ∀ w ∈ ws, IsWord w) :
    Spaced ([' '].intercalate ws) := by
  rw [Spaced, words_intercalate h]

theorem count_space_word {w : List Char} (h : IsWord w) : w.count ' ' = 0 := by
  refine List.count_eq_zero.2 fun hmem => ?_
  exact absurd (h.2 ' ' hmem) (by decide)

/-- Between words there are spaces, one fewer than words. -/
theorem count_space_intercalate {ws : List (List Char)} (h : ∀ w ∈ ws, IsWord w) :
    ([' '].intercalate ws).count ' ' = ws.length - 1 := by
  induction ws with
  | nil => rfl
  | cons w ws ih =>
      have hw := count_space_word (h w (by simp))
      have hws := ih fun v hv => h v (by simp [hv])
      cases ws with
      | nil => simpa using hw
      | cons v ws =>
          rw [List.intercalate_cons_cons, List.count_append, List.count_append, hw, hws]
          simp [Nat.add_comm]

theorem mem_intercalate_iff {ws : List (List Char)} {x : Char} (hspace : x ≠ ' ') :
    x ∈ [' '].intercalate ws ↔ ∃ w ∈ ws, x ∈ w := by
  induction ws with
  | nil => simp
  | cons w ws ih =>
      cases ws with
      | nil => simp
      | cons v ws =>
          rw [List.intercalate_cons_cons, List.append_assoc, List.mem_append, List.singleton_append,
            List.mem_cons, ih]
          simp [hspace]

theorem Spaced.count_eq {cs : List Char} (h : Spaced cs) : cs.count ' ' = (words cs).length - 1 := by
  rw [← count_space_intercalate fun w hw => isWord_of_mem_words hw, h]

end Text

theorem Literal.quoteFor_ne_space (cs : List Char) : quoteFor cs ≠ ' ' := by
  intro hspace
  have hquote := isQuote_quoteFor cs
  rw [hspace] at hquote
  exact absurd hquote (by decide)

namespace Literal.Escapes

open Text

variable {quote : Char} {cs ds : List Char}

theorem mem_or_backslash (h : Escapes quote cs ds) {x : Char} (hx : x ∈ ds) : x ∈ cs ∨ x = '\\' := by
  by_cases hback : x = '\\'
  · exact .inr hback
  · rw [← List.count_pos_iff, h.count_eq hback, List.count_pos_iff] at hx
    exact .inl hx

/-- Escapes turn a word into a word. -/
theorem isWord (h : Escapes quote cs ds) (hcs : IsWord cs) : IsWord ds := by
  refine ⟨?_, fun x hx => ?_⟩
  · rintro rfl
    obtain ⟨x, xs, rfl⟩ := List.exists_cons_of_ne_nil hcs.1
    exact absurd (h.subset List.mem_cons_self) (by simp)
  · rcases h.mem_or_backslash hx with hx | rfl
    · exact hcs.2 x hx
    · decide

/-- The space behind a word stays where it is, even if the word ends in a backslash. -/
theorem split (hquote : quote ≠ ' ') {w : List Char} (hw : ∀ x ∈ w, isWhiteSpace x = false)
    (h : Escapes quote (w ++ ' ' :: cs) ds) :
    ∃ w' ds', ds = w' ++ ' ' :: ds' ∧ (∀ x ∈ w', isWhiteSpace x = false) ∧ (w ≠ [] → w' ≠ []) ∧
      Escapes quote cs ds' := by
  have hback : isWhiteSpace '\\' = false := by decide
  -- The induction is on the escapes: a pair may take the space, and is then all that is left of the word.
  generalize htext : w ++ ' ' :: cs = text at h
  induction h generalizing w with
  | nil => simp at htext
  | dangling =>
      rcases w with - | ⟨x, w⟩
      · simp at htext
      · simp at htext
  | @pair c rest ds hrest ih =>
      rcases w with - | ⟨x, - | ⟨y, w⟩⟩
      · simp at htext
      · obtain ⟨-, rfl, rfl⟩ : x = '\\' ∧ ' ' = c ∧ cs = rest := by simpa using htext
        exact ⟨['\\'], ds, rfl, by simpa using hback, by simp, hrest⟩
      · obtain ⟨rfl, rfl, hsplit⟩ : x = '\\' ∧ y = c ∧ w ++ ' ' :: cs = rest := by simpa using htext
        obtain ⟨-, hw⟩ := List.forall_mem_cons.1 hw
        obtain ⟨hy, hw⟩ := List.forall_mem_cons.1 hw
        obtain ⟨w', ds', rfl, hw', -, hds'⟩ := ih hw hsplit
        refine ⟨'\\' :: y :: w', ds', rfl, ?_, by simp, hds'⟩
        exact List.forall_mem_cons.2 ⟨hback, List.forall_mem_cons.2 ⟨hy, hw'⟩⟩
  | @bare rest ds hrest ih =>
      rcases w with - | ⟨x, w⟩
      · exact absurd (List.cons.inj htext).1 hquote.symm
      · obtain ⟨rfl, hsplit⟩ : x = quote ∧ w ++ ' ' :: cs = rest := by simpa using htext
        obtain ⟨w', ds', rfl, hw', -, hds'⟩ := ih (List.forall_mem_cons.1 hw).2 hsplit
        refine ⟨'\\' :: x :: w', ds', rfl, ?_, by simp, hds'⟩
        exact List.forall_mem_cons.2 ⟨hback, List.forall_mem_cons.2 ⟨hw x (by simp), hw'⟩⟩
  | @plain c hne hnot rest ds hrest ih =>
      rcases w with - | ⟨x, w⟩
      · obtain ⟨rfl, rfl⟩ : ' ' = c ∧ cs = rest := by simpa using htext
        exact ⟨[], ds, rfl, by simp, by simp, hrest⟩
      · obtain ⟨rfl, hsplit⟩ : x = c ∧ w ++ ' ' :: cs = rest := by simpa using htext
        obtain ⟨w', ds', rfl, hw', -, hds'⟩ := ih (List.forall_mem_cons.1 hw).2 hsplit
        refine ⟨x :: w', ds', rfl, ?_, by simp, hds'⟩
        exact List.forall_mem_cons.2 ⟨hw x (by simp), hw'⟩

/-- **Escapes turn words with spaces between them into such words**, as many as there were. -/
theorem exists_words (hquote : quote ≠ ' ') {ws : List (List Char)} (hws : ∀ w ∈ ws, IsWord w)
    (h : Escapes quote ([' '].intercalate ws) ds) :
    ∃ ws', ws'.length = ws.length ∧ (∀ w ∈ ws', IsWord w) ∧ ds = [' '].intercalate ws' := by
  induction ws generalizing ds with
  | nil =>
      cases h
      exact ⟨[], rfl, by simp, rfl⟩
  | cons w ws ih =>
      have hw := hws w (by simp)
      cases ws with
      | nil => exact ⟨[ds], rfl, by simpa using h.isWord (by simpa using hw), by simp⟩
      | cons v ws =>
          rw [List.intercalate_cons_cons, List.append_assoc, List.singleton_append] at h
          obtain ⟨w', ds', rfl, hw', hne, hds'⟩ := h.split hquote hw.2
          obtain ⟨ws', hlen, hws', rfl⟩ := ih (fun u hu => hws u (by simp [hu])) hds'
          obtain ⟨v', ws', rfl⟩ := List.exists_cons_of_length_eq_add_one hlen
          refine ⟨w' :: v' :: ws', by simpa using hlen, ?_, ?_⟩
          · exact List.forall_mem_cons.2 ⟨⟨hne hw.1, hw'⟩, hws'⟩
          · rw [List.intercalate_cons_cons, List.append_assoc, List.singleton_append]

end Literal.Escapes

namespace Attribute

open Text

/-- Each word is a token, or there are fewer tokens than words. -/
theorem foldl_addToken_eq_or_lt (words found : List String) :
    words.foldl addToken found = found ++ words ∨
      (words.foldl addToken found).length < found.length + words.length := by
  induction words generalizing found with
  | nil => exact .inl (by simp)
  | cons word words ih =>
      rw [List.foldl_cons, addToken]
      split
      · refine .inr ?_
        rcases ih found with heq | hlt
        · simp [heq]
        · rw [List.length_cons]
          omega
      · rcases ih (found ++ [word]) with heq | hlt
        · exact .inl (by simpa using heq)
        · refine .inr ?_
          rw [List.length_append, List.length_singleton] at hlt
          rw [List.length_cons]
          omega

/-- **Distinct words are the tokens**, and there are fewer tokens than words if these are not
distinct. -/
theorem tokensOf_eq_or_lt (text : String) :
    tokensOf text = (words text.toList).map String.ofList ∧ (words text.toList).Nodup ∨
      (tokensOf text).length < (words text.toList).length ∧ ¬(words text.toList).Nodup := by
  by_cases hnodup : (words text.toList).Nodup
  · refine .inl ⟨?_, hnodup⟩
    have hset : TokenSet ([] ++ (words text.toList).map String.ofList) := by
      refine ⟨?_, fun token htoken => ?_⟩
      · refine List.Pairwise.map _ (fun a b hab heq => hab ?_) hnodup
        simpa using congrArg String.toList heq
      · obtain ⟨w, hw, rfl⟩ := List.mem_map.1 htoken
        rw [String.toList_ofList]
        exact isWord_of_mem_words hw
    exact hset.foldl_addToken_eq
  · refine .inr ⟨?_, hnodup⟩
    rcases foldl_addToken_eq_or_lt ((words text.toList).map String.ofList) [] with heq | hlt
    · refine absurd ?_ hnodup
      have hset := tokenSet_tokensOf text
      rw [tokensOf, heq] at hset
      exact List.Pairwise.of_map _ (fun a b hab heq => hab (congrArg _ heq)) hset.nodup
    · simpa [tokensOf] using hlt

theorem toList_intercalate_tokensOf (text : String) :
    (" ".intercalate (tokensOf text)).toList = [' '].intercalate ((tokensOf text).map String.toList) := by
  rw [String.toList_intercalate]
  rfl

variable {text : String}

/-- A text of distinct words is the text of its tokens. -/
theorem intercalate_tokensOf (hspaced : Spaced text.toList) (hnodup : (words text.toList).Nodup) :
    " ".intercalate (tokensOf text) = text := by
  rcases tokensOf_eq_or_lt text with ⟨heq, -⟩ | ⟨-, hnot⟩
  · have hmap : ((words text.toList).map String.ofList).map String.toList = words text.toList := by
      simp [List.map_map, Function.comp_def]
    refine String.toList_inj.1 ?_
    rw [toList_intercalate_tokensOf, heq, hmap, hspaced]
  · exact absurd hnodup hnot

/-- If the words are not distinct, the text of the tokens has fewer spaces. -/
theorem count_space_intercalate_tokensOf (hspaced : Spaced text.toList)
    (hnodup : ¬(words text.toList).Nodup) :
    (" ".intercalate (tokensOf text)).toList.count ' ' < text.toList.count ' ' := by
  rcases tokensOf_eq_or_lt text with ⟨-, hyes⟩ | ⟨hlt, -⟩
  · exact absurd hyes hnodup
  · have hword : ∀ w ∈ (tokensOf text).map String.toList, IsWord w := by
      intro w hw
      obtain ⟨token, htoken, rfl⟩ := List.mem_map.1 hw
      exact (tokenSet_tokensOf text).isWord token htoken
    have htwo : 2 ≤ (words text.toList).length := by
      rcases hwords : words text.toList with - | ⟨w, - | ⟨v, ws⟩⟩
      · simp [hwords] at hnodup
      · simp [hwords] at hnodup
      · simp
    rw [toList_intercalate_tokensOf, count_space_intercalate hword, hspaced.count_eq, List.length_map]
    omega

/-- What a literal keeps of the text of a token set is its words with single spaces between them. -/
theorem TokenSet.spaced_kept {tokens : List String} (h : TokenSet tokens) :
    Spaced (Literal.kept (" ".intercalate tokens)).toList := by
  have hescapes := Literal.escapes_kept (" ".intercalate tokens)
  have hquote := Literal.quoteFor_ne_space (" ".intercalate tokens).toList
  rw [String.toList_intercalate] at hescapes hquote
  obtain ⟨ws, -, hws, heq⟩ := hescapes.exists_words hquote fun w hw => by
    obtain ⟨token, htoken, rfl⟩ := List.mem_map.1 hw
    exact h.isWord token htoken
  rw [heq]
  exact spaced_intercalate hws

end Attribute

end Shorthand

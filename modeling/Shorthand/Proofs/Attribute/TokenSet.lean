import Shorthand.Attribute

/-!
# Token sets

The tokens of a class are distinct words. `TokenSet` says so of a list; every way of making a list of
tokens gives one, and a token set reads back from its tokens with single spaces between them.
-/

namespace Shorthand

namespace Text

/-- A run of characters other than white space that is not empty. -/
def IsWord (w : List Char) : Prop :=
  w ≠ [] ∧ ∀ c ∈ w, isWhiteSpace c = false

theorem wordsFrom_append {w : List Char} (h : ∀ c ∈ w, isWhiteSpace c = false) (word cs : List Char) :
    wordsFrom word (w ++ cs) = wordsFrom (w.reverse ++ word) cs := by
  induction w generalizing word with
  | nil => rfl
  | cons c w ih =>
      have hc : isWhiteSpace c = false := h c (by simp)
      rw [List.cons_append, wordsFrom, hc]
      rw [if_neg (by simp), ih fun d hd => h d (by simp [hd])]
      simp

theorem words_eq_singleton {w : List Char} (h : IsWord w) : words w = [w] := by
  have happ := wordsFrom_append h.2 [] []
  have hempty : w.reverse.isEmpty = false := by simpa using h.1
  simp only [List.append_nil] at happ
  simp [words, happ, wordsFrom, hempty]

/-- White space behind a word ends it. -/
theorem words_cons_space {w : List Char} (h : IsWord w) (cs : List Char) :
    words (w ++ ' ' :: cs) = w :: words cs := by
  have hspace : isWhiteSpace ' ' = true := by decide
  have hempty : w.reverse.isEmpty = false := by simpa using h.1
  rw [words, wordsFrom_append h.2, List.append_nil, wordsFrom, if_pos hspace]
  simp [hempty, words]

/-- Words with single spaces between them are read as they are. -/
theorem words_intercalate {ws : List (List Char)} (h : ∀ w ∈ ws, IsWord w) :
    words ([' '].intercalate ws) = ws := by
  induction ws with
  | nil => rfl
  | cons w ws ih =>
      have hw : IsWord w := h w (by simp)
      have hws : ∀ v ∈ ws, IsWord v := fun v hv => h v (by simp [hv])
      cases ws with
      | nil => simpa using words_eq_singleton hw
      | cons v ws =>
          rw [List.intercalate_cons_cons, List.append_assoc, List.singleton_append]
          rw [words_cons_space hw, ih hws]

theorem isWord_of_mem_wordsFrom {word cs : List Char} (h : ∀ c ∈ word, isWhiteSpace c = false) :
    ∀ w ∈ wordsFrom word cs, IsWord w := by
  fun_induction wordsFrom word cs with
  | case1 word hempty => simp
  | case2 word hempty =>
      simp only [List.isEmpty_iff] at hempty
      simpa [IsWord, hempty] using h
  | case3 word c cs hc hempty ih => exact ih (by simp)
  | case4 word c cs hc hempty ih =>
      simp only [List.isEmpty_iff] at hempty
      intro w hw
      rcases List.mem_cons.1 hw with rfl | hw
      · simpa [IsWord, hempty] using h
      · exact ih (by simp) w hw
  | case5 word c cs hc ih =>
      refine ih fun d hd => ?_
      rcases List.mem_cons.1 hd with rfl | hd
      · simpa using hc
      · exact h d hd

/-- What a text is cut into are words. -/
theorem isWord_of_mem_words {cs w : List Char} (h : w ∈ words cs) : IsWord w :=
  isWord_of_mem_wordsFrom (by simp) w h

theorem trimmed_of_no_space {s : String} (h : ∀ c ∈ s.toList, isWhiteSpace c = false) :
    trimmed s = s := by
  have hdrop : ∀ {cs : List Char}, (∀ c ∈ cs, isWhiteSpace c = false) →
      cs.dropWhile isWhiteSpace = cs := by
    intro cs hcs
    cases cs with
    | nil => rfl
    | cons c cs => simp [hcs c (by simp)]
  rw [trimmed, trim, trimEnd, hdrop h, hdrop fun c hc => h c (by simpa using hc)]
  simp

end Text

namespace Attribute

/-- Distinct words. -/
structure TokenSet (tokens : List String) : Prop where
  nodup : tokens.Nodup
  isWord : ∀ token ∈ tokens, Text.IsWord token.toList

theorem TokenSet.nil : TokenSet [] :=
  ⟨.nil, by simp⟩

theorem TokenSet.sublist {tokens tokens' : List String} (h : TokenSet tokens')
    (hsub : tokens.Sublist tokens') : TokenSet tokens :=
  ⟨h.nodup.sublist hsub, fun token htoken => h.isWord token (hsub.subset htoken)⟩

theorem mem_addToken {tokens : List String} {token x : String} :
    x ∈ addToken tokens token ↔ x ∈ tokens ∨ x = token ∧ x ≠ "" := by
  rw [addToken]
  split
  · next hold =>
    refine ⟨.inl, fun h => h.elim id ?_⟩
    rintro ⟨rfl, hne⟩
    exact hold.resolve_left hne
  · next hnew =>
    simp only [not_or] at hnew
    rw [List.mem_append, List.mem_singleton]
    refine or_congr_right ⟨fun heq => ⟨heq, ?_⟩, And.left⟩
    rw [heq]
    exact hnew.1

/-- Adding a token keeps the tokens distinct. -/
theorem nodup_addToken {tokens : List String} (h : tokens.Nodup) (token : String) :
    (addToken tokens token).Nodup := by
  rw [addToken]
  split
  · exact h
  · next hnew =>
    simp only [not_or] at hnew
    rw [List.nodup_append]
    refine ⟨h, by simp, ?_⟩
    rintro a ha b hb rfl
    rw [List.mem_singleton] at hb
    exact hnew.2 (hb ▸ ha)

theorem TokenSet.addToken {tokens : List String} (h : TokenSet tokens) {token : String}
    (hfree : ∀ c ∈ token.toList, Text.isWhiteSpace c = false) : TokenSet (addToken tokens token) := by
  refine ⟨nodup_addToken h.nodup token, fun a ha => ?_⟩
  rcases mem_addToken.1 ha with ha | ⟨rfl, hne⟩
  · exact h.isWord a ha
  · exact ⟨by simpa using hne, hfree⟩

theorem TokenSet.foldl_addToken {tokens : List String} (h : TokenSet tokens) {words : List String}
    (hwords : ∀ word ∈ words, Text.IsWord word.toList) :
    TokenSet (words.foldl Attribute.addToken tokens) := by
  induction words generalizing tokens with
  | nil => exact h
  | cons word words ih =>
      exact ih (h.addToken (hwords word (by simp)).2) fun v hv => hwords v (by simp [hv])

/-- The tokens of a text are a token set. -/
theorem tokenSet_tokensOf (text : String) : TokenSet (tokensOf text) := by
  refine TokenSet.nil.foldl_addToken fun word hword => ?_
  obtain ⟨w, hw, rfl⟩ := List.mem_map.1 hword
  rw [String.toList_ofList]
  exact Text.isWord_of_mem_words hw

theorem mem_foldl_addToken {word : String} {words found : List String} :
    word ∈ words.foldl addToken found ↔ word ∈ found ∨ word ∈ words ∧ word ≠ "" := by
  induction words generalizing found with
  | nil => simp
  | cons first words ih => rw [List.foldl_cons, ih, mem_addToken, List.mem_cons, or_and_right, or_assoc]

/-- The tokens of a text are its words. -/
theorem mem_tokensOf_iff {text token : String} :
    token ∈ tokensOf text ↔ token.toList ∈ Text.words text.toList := by
  have hwords : token ∈ (Text.words text.toList).map String.ofList ↔
      token.toList ∈ Text.words text.toList := by
    constructor
    · intro h
      obtain ⟨w, hw, rfl⟩ := List.mem_map.1 h
      rwa [String.toList_ofList]
    · exact fun h => List.mem_map.2 ⟨_, h, String.ofList_toList⟩
  rw [tokensOf, mem_foldl_addToken, hwords]
  refine ⟨fun h => (h.resolve_left (by simp)).1, fun h => .inr ⟨h, ?_⟩⟩
  rintro rfl
  exact (Text.isWord_of_mem_words h).1 rfl

theorem mem_tokensOf {text : String} {w : List Char} (h : w ∈ Text.words text.toList) :
    String.ofList w ∈ tokensOf text :=
  mem_tokensOf_iff.2 (by rwa [String.toList_ofList])

/-- Adding the tokens of a set one by one gives the set. -/
theorem TokenSet.foldl_addToken_eq {tokens found : List String} (h : TokenSet (found ++ tokens)) :
    tokens.foldl Attribute.addToken found = found ++ tokens := by
  induction tokens generalizing found with
  | nil => simp
  | cons token tokens ih =>
      have hword := h.isWord token (by simp)
      have hne : token ≠ "" := by simpa using hword.1
      have hnew : token ∉ found := by
        intro hmem
        exact (List.nodup_append.1 h.nodup).2.2 token hmem token (by simp) rfl
      have hadd : Attribute.addToken found token = found ++ [token] := by
        rw [Attribute.addToken, if_neg (by simp [hne, hnew])]
      rw [List.foldl_cons, hadd, ih (by simpa using h)]
      simp

/-- **A token set reads back from its text.** -/
theorem TokenSet.tokensOf_intercalate {tokens : List String} (h : TokenSet tokens) :
    tokensOf (" ".intercalate tokens) = tokens := by
  have hwords : Text.words (" ".intercalate tokens).toList = tokens.map String.toList := by
    rw [String.toList_intercalate]
    refine Text.words_intercalate fun w hw => ?_
    obtain ⟨token, htoken, rfl⟩ := List.mem_map.1 hw
    exact h.isWord token htoken
  have hmap : (tokens.map String.toList).map String.ofList = tokens := by
    simp [List.map_map, Function.comp_def]
  rw [tokensOf, hwords, hmap]
  exact TokenSet.foldl_addToken_eq h

end Attribute

end Shorthand

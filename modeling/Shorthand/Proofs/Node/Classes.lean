import Mathlib.Data.List.Induction
import Shorthand.Proofs.Node.Reread

/-!
# Classes over time

A node starts empty and is changed step by step. Whatever its history, its classes are distinct,
none of them is empty, and adding one never takes another away. Whether they are *words* depends on
the history. The first class that is added makes the attribute, and the text is then cut into its
words; any further one goes in as a single token, white space inside it included.

So a node holds words at all times just when no text with white space inside was ever added to a
class attribute that was there already, and adding a text adds its words just when the text is one
word or the attribute is missing (`classes_after`).
-/

namespace Shorthand

/-! ### Words of a trimmed text -/

namespace Text

theorem wordsFrom_append_spaces {spaces : List Char} (h : ∀ c ∈ spaces, isWhiteSpace c = true)
    (word cs : List Char) : wordsFrom word (cs ++ spaces) = wordsFrom word cs := by
  have hspaces : wordsFrom [] spaces = [] := by
    induction spaces with
    | nil => rfl
    | cons c spaces ih =>
        obtain ⟨hc, hrest⟩ := List.forall_mem_cons.1 h
        simp [wordsFrom, hc, ih hrest]
  fun_induction wordsFrom word cs with
  | case1 word hempty =>
      obtain rfl : word = [] := by simpa using hempty
      exact hspaces
  | case2 word hempty =>
      cases spaces with
      | nil => simp [wordsFrom, hempty]
      | cons c spaces =>
          have hc := h c (by simp)
          have hrest : wordsFrom [] spaces = [] := by simpa [wordsFrom, hc] using hspaces
          simp [wordsFrom, hc, hempty, hrest]
  | case3 word c cs hc hempty ih => simpa [wordsFrom, hc, hempty] using ih
  | case4 word c cs hc hempty ih => simpa [wordsFrom, hc, hempty] using ih
  | case5 word c cs hc ih => simpa [wordsFrom, hc] using ih

theorem words_dropWhile (cs : List Char) : words (cs.dropWhile isWhiteSpace) = words cs := by
  induction cs with
  | nil => rfl
  | cons c cs ih =>
      by_cases hc : isWhiteSpace c
      · rw [List.dropWhile_cons_of_pos hc, ih, words, words, wordsFrom, if_pos hc]
        rfl
      · rw [List.dropWhile_cons_of_neg hc]

theorem words_trimEnd (cs : List Char) : words (trimEnd cs) = words cs := by
  have hsplit : trimEnd cs ++ (cs.reverse.takeWhile isWhiteSpace).reverse = cs := by
    rw [trimEnd, ← List.reverse_append, List.takeWhile_append_dropWhile, List.reverse_reverse]
  have hspaces : ∀ c ∈ (cs.reverse.takeWhile isWhiteSpace).reverse, isWhiteSpace c = true :=
    fun c hc => List.all_eq_true.1 List.all_takeWhile c (List.mem_reverse.1 hc)
  have hwords := wordsFrom_append_spaces hspaces [] (trimEnd cs)
  rw [hsplit] at hwords
  exact hwords.symm

/-- White space at the ends is no part of a word. -/
theorem words_trimmed (text : String) : words (trimmed text).toList = words text.toList := by
  rw [trimmed, String.toList_ofList, trim, words_trimEnd, words_dropWhile]

/-- The text is a single word or blank, white space around it apart. -/
def AtMostOne (text : String) : Prop :=
  ∀ c ∈ (trimmed text).toList, isWhiteSpace c = false

instance (text : String) : Decidable (AtMostOne text) :=
  List.decidableBAll _ _

theorem AtMostOne.mem_words_iff {text : String} (h : AtMostOne text) {token : String} :
    token.toList ∈ words text.toList ↔ token = trimmed text ∧ token ≠ "" := by
  rw [← words_trimmed]
  by_cases hempty : trimmed text = ""
  · simp [hempty, words, wordsFrom]
  · rw [words_eq_singleton ⟨by simpa using hempty, h⟩, List.mem_singleton, String.toList_inj]
    refine ⟨fun heq => ⟨heq, ?_⟩, And.left⟩
    rwa [heq]

theorem not_isWord_of_not_atMostOne {text : String} (h : ¬AtMostOne text) :
    ¬IsWord (trimmed text).toList :=
  fun hword => h hword.2

end Text

namespace Attribute

theorem prefix_addToken (tokens : List String) (token : String) :
    tokens <+: addToken tokens token := by
  rw [addToken]
  split
  · exact List.prefix_rfl
  · exact List.prefix_append _ _

/-- Distinct tokens, none of them empty. -/
structure Distinct (tokens : List String) : Prop where
  nodup : tokens.Nodup
  ne_empty : "" ∉ tokens

theorem TokenSet.distinct {tokens : List String} (h : TokenSet tokens) : Distinct tokens :=
  ⟨h.nodup, fun hmem => (h.isWord "" hmem).1 rfl⟩

theorem Distinct.addToken {tokens : List String} (h : Distinct tokens) (token : String) :
    Distinct (addToken tokens token) := by
  refine ⟨nodup_addToken h.nodup token, fun hmem => ?_⟩
  rcases mem_addToken.1 hmem with hold | ⟨-, hne⟩
  · exact h.ne_empty hold
  · exact hne rfl

end Attribute

namespace Node

open Attribute Text

variable {n : Node}

/-! ### The class attribute -/

theorem find?_updateFirst {name : Option String} {f : Attribute → Attribute}
    (hf : ∀ a, a.name = name → (f a).name = name) (as : List Attribute) :
    (updateFirst name f as).find? (fun a => a.name = name) =
      (as.find? fun a => a.name = name).map f := by
  induction as with
  | nil => rfl
  | cons a as ih =>
      rw [updateFirst]
      by_cases hname : a.name = name
      · simp [hname, hf a hname]
      · simp [hname, ih]

theorem attribute?_updateClass (n : Node) (f : List String → List String) :
    (n.updateClass f).attribute? "class" =
      (n.attribute? "class").map fun a => { a with value := some (.tokens (f a.tokens)) } := by
  rw [attribute?, updateClass, find?_updateFirst, ← attribute?]
  exact fun _ hname => hname

/-- What a class attribute of the node holds is a list of tokens with the property. -/
def Holds (P : List String → Prop) (n : Node) : Prop :=
  ∀ a ∈ n.attributes, a.name = some "class" → ∃ list, a.value = some (.tokens list) ∧ P list

theorem classes_of_absent (h : n.hasAttribute "class" = false) : n.classes = [] := by
  rw [hasAttribute, Option.isSome_eq_false_iff, Option.isNone_iff_eq_none] at h
  rw [classes, h]

variable {P : List String → Prop}

theorem Holds.exists_attribute (h : n.Holds P) (hhas : n.hasAttribute "class" = true) :
    ∃ a, n.attribute? "class" = some a ∧ a.value = some (.tokens n.classes) ∧ P n.classes := by
  obtain ⟨a, ha⟩ := Option.isSome_iff_exists.1 hhas
  have hname : a.name = some "class" := by simpa using List.find?_some ha
  obtain ⟨list, hvalue, hlist⟩ := h a (List.mem_of_find?_eq_some ha) hname
  have hclasses : n.classes = list := by
    obtain ⟨name, value, options⟩ := a
    obtain rfl : value = some (.tokens list) := hvalue
    rw [classes, ha]
  rw [hclasses]
  exact ⟨a, ha, hvalue, hlist⟩

theorem Holds.classes (h : n.Holds P) (hnil : P []) : P n.classes := by
  cases hhas : n.hasAttribute "class" with
  | false =>
      rw [classes_of_absent hhas]
      exact hnil
  | true =>
      obtain ⟨-, -, -, hlist⟩ := h.exists_attribute hhas
      exact hlist

/-- To a class attribute that is there, a text is added as one token. -/
theorem Holds.classes_addClass (h : n.Holds P) (hhas : n.hasAttribute "class" = true)
    (text : String) : (n.addClass text).classes = addToken n.classes (trimmed text) := by
  obtain ⟨a, ha, hvalue, -⟩ := h.exists_attribute hhas
  have htokens : a.tokens = n.classes := by rw [Attribute.tokens, hvalue]
  rw [addClass, if_pos hhas, Node.classes, attribute?_updateClass, ha, Option.map_some]
  simp [htokens]

/-- Where there is none, the text is cut into words. -/
theorem classes_addClass_of_absent (h : n.hasAttribute "class" = false) (text : String) :
    (n.addClass text).classes = tokensOf text := by
  have hnone : ∀ a ∈ n.attributes, ¬a.name = some "class" := by
    simpa [hasAttribute, attribute?] using h
  have hset : n.setAttribute (named "class" (trimmed text)) =
      { n with attributes := n.attributes ++ [named "class" (trimmed text)] } := by
    rw [setAttribute, if_neg]
    simpa [named, make] using hnone
  have hfind : n.attributes.find? (fun a => a.name = some "class") = none := by
    simpa using hnone
  have htokens : tokensOf (trimmed text) = tokensOf text := by
    rw [tokensOf, words_trimmed, ← tokensOf]
  rw [addClass, if_neg (by simp [h]), hset, Node.classes, attribute?, List.find?_append, hfind]
  simp [named, make, htokens]

/-! ### Changes -/

/-- A change of the attributes of a node. -/
inductive Change where
  | addClass (text : String)
  | removeClass (text : String)
  | setAttribute (name value : Option String)
  | eraseAttribute (name : String)

/-- Makes the change. -/
def Change.apply (n : Node) : Change → Node
  | addClass text => n.addClass text
  | removeClass text => n.removeClass text
  | setAttribute name value => n.setAttribute (.make name value)
  | eraseAttribute name => n.eraseAttribute name

/-- What a new node has become after the changes. -/
def after (changes : List Change) : Node :=
  changes.foldl Change.apply {}

theorem Holds.setAttribute (h : n.Holds P) {a : Attribute}
    (ha : a.name = some "class" → ∃ list, a.value = some (.tokens list) ∧ P list) :
    (n.setAttribute a).Holds P := by
  rw [Node.setAttribute]
  split
  · intro b hb hname
    rcases mem_updateFirst hb with hmem | ⟨-, -, -, rfl⟩
    · exact h b hmem hname
    · exact ha hname
  · intro b hb hname
    rcases List.mem_append.1 hb with hmem | hmem
    · exact h b hmem hname
    · obtain rfl := List.mem_singleton.1 hmem
      exact ha hname

theorem Holds.updateClass (h : n.Holds P) {f : List String → List String}
    (hf : n.hasAttribute "class" = true → ∀ list, P list → P (f list)) :
    (n.updateClass f).Holds P := by
  intro b hb hname
  rcases mem_updateFirst hb with hmem | ⟨a, ha, haname, rfl⟩
  · exact h b hmem hname
  · obtain ⟨list, hvalue, hlist⟩ := h a ha haname
    have hhas : n.hasAttribute "class" = true := by
      rw [hasAttribute, attribute?, List.find?_isSome]
      exact ⟨a, ha, by simpa using haname⟩
    refine ⟨f list, ?_, hf hhas list hlist⟩
    simp [Attribute.tokens, hvalue]

section History

variable (hset : ∀ text, P (tokensOf text))
  (hfilter : ∀ (list : List String) (p : String → Bool), P list → P (list.filter p))

include hset hfilter

/-- **What one change keeps.** Only a text that is added as one token needs a look. -/
theorem Holds.apply (h : n.Holds P) {change : Change}
    (hadd : ∀ text, change = .addClass text → n.hasAttribute "class" = true →
      ∀ list, P list → P (addToken list (trimmed text))) : (change.apply n).Holds P := by
  have hmake : ∀ name value, (make name value).name = some "class" →
      ∃ list, (make name value).value = some (.tokens list) ∧ P list := by
    intro name value hname
    have hclass : name = some "class" := by simpa only [name_make] using hname
    exact ⟨tokensOf (value.getD ""), by simp [make, hclass], hset _⟩
  cases change with
  | addClass text =>
      rw [Change.apply, Node.addClass]
      split
      · exact h.updateClass fun hhas => hadd text rfl hhas
      · exact h.setAttribute (hmake _ _)
  | removeClass text => exact h.updateClass fun _ list => hfilter list _
  | setAttribute name value => exact h.setAttribute (hmake name value)
  | eraseAttribute name => exact fun a ha => h a (List.mem_of_mem_eraseP ha)

/-- **What a history keeps.** -/
theorem holds_after {changes : List Change}
    (hadd : ∀ past text, past ++ [.addClass text] <+: changes →
      (after past).hasAttribute "class" = true → ∀ list, P list → P (addToken list (trimmed text))) :
    (after changes).Holds P := by
  induction changes using List.reverseRecOn with
  | nil => simp [after, Holds]
  | append_singleton changes change ih =>
      have hpast := ih fun past text hpre => hadd past text (hpre.trans (List.prefix_append _ _))
      rw [after, List.foldl_append]
      refine hpast.apply hset hfilter fun text htext => hadd changes text ?_
      exact htext ▸ List.prefix_rfl

end History

/-- Whatever the history, the classes are distinct and none of them is empty. -/
theorem distinct_after (changes : List Change) : (after changes).Holds Distinct := by
  refine holds_after (fun text => (tokenSet_tokensOf text).distinct) (fun list p h => ?_) ?_
  · exact ⟨h.nodup.filter p, fun hmem => h.ne_empty (List.mem_filter.1 hmem).1⟩
  · exact fun _ text _ _ list hlist => hlist.addToken _

/-- They are words as long as no text of several words is added as one token. -/
theorem tokenSet_after {changes : List Change}
    (h : ∀ past text, past ++ [.addClass text] <+: changes →
      (after past).hasAttribute "class" = true → AtMostOne text) : (after changes).Holds TokenSet :=
  holds_after tokenSet_tokensOf (fun _ _ hlist => hlist.sublist List.filter_sublist)
    fun past text hpast hhas _ hlist => hlist.addToken (h past text hpast hhas)

/-! ### Adding words -/

/-- The words of the text are classes when the text has been added, what was a class still is, in
the same order, and nothing else was added. -/
structure AddsWords (n : Node) (text : String) : Prop where
  added : ∀ word ∈ words text.toList, (n.addClass text).hasClass (String.ofList word) = true
  kept : n.classes.Sublist (n.addClass text).classes
  only : ∀ token ∈ (n.addClass text).classes, token ∈ n.classes ∨ token.toList ∈ words text.toList

theorem hasClass_word {word : List Char} (h : IsWord word) :
    n.hasClass (String.ofList word) = true ↔ String.ofList word ∈ n.classes := by
  rw [hasClass, List.contains_iff_mem, trimmed_of_no_space]
  simpa using h.2

theorem addsWords_of_absent (h : n.hasAttribute "class" = false) (text : String) :
    n.AddsWords text where
  added := by
    intro word hword
    rw [hasClass_word (isWord_of_mem_words hword), classes_addClass_of_absent h]
    exact mem_tokensOf hword
  kept := by
    rw [classes_of_absent h]
    exact List.nil_sublist _
  only := by
    intro token htoken
    rw [classes_addClass_of_absent h] at htoken
    exact .inr (mem_tokensOf_iff.1 htoken)

/-- To classes that are there, several words are never added, but they may all be classes already. -/
theorem Holds.addsWords_iff (h : n.Holds P) (hhas : n.hasAttribute "class" = true) {text : String} :
    n.AddsWords text ↔ AtMostOne text ∨
      trimmed text ∈ n.classes ∧ ∀ word ∈ words text.toList, String.ofList word ∈ n.classes := by
  have hclasses := h.classes_addClass hhas text
  constructor
  · intro hadds
    by_cases hone : AtMostOne text
    · exact .inl hone
    · -- Several words are added as one class. That is no word, so it must have been there before.
      have hnot := not_isWord_of_not_atMostOne hone
      have hne : trimmed text ≠ "" := by
        intro hempty
        exact hone (by simp [AtMostOne, hempty])
      have hold : trimmed text ∈ n.classes := by
        refine (hadds.only (trimmed text) ?_).resolve_right fun hword => hnot (isWord_of_mem_words hword)
        rw [hclasses]
        exact mem_addToken.2 (.inr ⟨rfl, hne⟩)
      refine .inr ⟨hold, fun word hword => ?_⟩
      have hadded := (hasClass_word (isWord_of_mem_words hword)).1 (hadds.added word hword)
      rwa [hclasses, addToken, if_pos (.inr hold)] at hadded
  · intro hcase
    refine ⟨fun word hword => ?_, ?_, fun token htoken => ?_⟩
    · rw [hasClass_word (isWord_of_mem_words hword), hclasses, mem_addToken]
      rcases hcase with hone | ⟨-, hwords⟩
      · exact .inr (hone.mem_words_iff.1 (by rwa [String.toList_ofList]))
      · exact .inl (hwords word hword)
    · rw [hclasses]
      exact (prefix_addToken _ _).sublist
    · rw [hclasses, mem_addToken] at htoken
      rcases hcase with hone | ⟨hold, -⟩
      · exact htoken.imp_right hone.mem_words_iff.2
      · exact .inl (htoken.elim id fun heq => heq.1 ▸ hold)

/-- **Classes over time.** Whatever the history, the classes are distinct and not empty, and adding
one keeps the others where they are. They have been words at all times just when no text of several
words was ever added to a class attribute that was there. And adding a text adds its words just when
it is at most one, or the attribute is missing, or the words and the text as a whole are classes
already. -/
theorem classes_after (changes : List Change) :
    (after changes).classes.Nodup ∧ "" ∉ (after changes).classes ∧
      (∀ text, (after changes).classes <+: ((after changes).addClass text).classes) ∧
      ((∀ past, past <+: changes → ∀ token ∈ (after past).classes, IsWord token.toList) ↔
        ∀ past text, past ++ [.addClass text] <+: changes →
          (after past).hasAttribute "class" = true → AtMostOne text) ∧
      ∀ text, (after changes).AddsWords text ↔
        (after changes).hasAttribute "class" = false ∨ AtMostOne text ∨
          trimmed text ∈ (after changes).classes ∧
            ∀ word ∈ words text.toList, String.ofList word ∈ (after changes).classes := by
  have hholds := distinct_after changes
  have hdistinct := hholds.classes ⟨.nil, by simp⟩
  refine ⟨hdistinct.nodup, hdistinct.ne_empty, fun text => ?_, ⟨?_, ?_⟩, fun text => ?_⟩
  · cases hhas : (after changes).hasAttribute "class" with
    | false =>
        rw [classes_of_absent hhas]
        exact List.nil_prefix
    | true =>
        rw [hholds.classes_addClass hhas]
        exact prefix_addToken _ _
  · -- A text of several words would be a class afterwards.
    intro hwords past text hpast hhas
    by_contra hone
    have hclasses := (distinct_after past).classes_addClass hhas text
    have hafter : after (past ++ [.addClass text]) = (after past).addClass text := by
      rw [after, List.foldl_append]
      rfl
    refine not_isWord_of_not_atMostOne hone (hwords _ hpast _ ?_)
    rw [hafter, hclasses, mem_addToken]
    refine .inr ⟨rfl, fun hempty => hone (by simp [AtMostOne, hempty])⟩
  · -- The set stays one of words, since all that goes into it is one.
    intro hone past hpast
    have hset := tokenSet_after fun past' text hpast' => hone past' text (hpast'.trans hpast)
    exact (hset.classes .nil).isWord
  · cases hhas : (after changes).hasAttribute "class" with
    | false => simp [addsWords_of_absent hhas]
    | true => simp [hholds.addsWords_iff hhas]

/-- Two words that are added to a class are neither of them a class afterwards; added first, they
are. -/
theorem classes_after_words :
    (after [.addClass "x", .addClass "a b"]).classes = ["x", "a b"] ∧
      ¬(after [.addClass "x"]).AddsWords "a b" ∧
      (after []).AddsWords "a b" := by
  obtain ⟨-, -, -, -, hpresent⟩ := classes_after [.addClass "x"]
  obtain ⟨-, -, -, -, habsent⟩ := classes_after []
  refine ⟨by decide +kernel, fun h => ?_, (habsent "a b").2 (.inl rfl)⟩
  rcases (hpresent "a b").1 h with hno | hone | ⟨hmem, -⟩
  · exact absurd hno (by decide +kernel)
  · exact absurd hone (by decide +kernel)
  · exact absurd hmem (by decide +kernel)

end Node

end Shorthand

import GitCrypt.Library.IStream

/-! Text that formatted extraction reads: words with white space between them, and lines
that a delimiter ends. -/
namespace Iostream.IStream

/-- The words `operator>>` takes from a text, one after the other. -/
def words (text : List UInt8) : List (List UInt8) := (text.splitOnP isSpace).filter (· ≠ [])

def IsWord (word : List UInt8) : Prop := word ≠ [] ∧ ∀ c ∈ word, isSpace c = false

instance decidableIsWord : DecidablePred IsWord := fun word =>
  have := List.decidableBAll (isSpace · = false) word
  inferInstanceAs (Decidable (word ≠ [] ∧ ∀ c ∈ word, isSpace c = false))

theorem words_of_isWord {word : List UInt8} (h : IsWord word) : words word = [word] := by
  rw [words, List.splitOnP_eq_singleton h.2]
  exact List.filter_cons_of_pos (by simpa using h.1)

theorem words_append_sep {word rest : List UInt8} {sep : UInt8} (h : IsWord word) (hsep : isSpace sep = true) :
    words (word ++ sep :: rest) = word :: words rest := by
  rw [words, List.splitOnP_append_cons_of_forall_mem h.2 _ hsep]
  exact List.filter_cons_of_pos (by simpa using h.1)

theorem words_cons_of_isSpace {c : UInt8} (h : isSpace c = true) (text : List UInt8) :
    words (c :: text) = words text := by
  rw [words, List.splitOnP_cons_eq_if_modifyHead, if_pos h]
  exact List.filter_cons_of_neg (by simp)

theorem words_append_of_isSpace {ws : List UInt8} (h : ∀ c ∈ ws, isSpace c = true) (text : List UInt8) :
    words (ws ++ text) = words text := by
  induction ws with
  | nil => rfl
  | cons c ws ih =>
    rw [List.forall_mem_cons] at h
    rw [List.cons_append, words_cons_of_isSpace h.1, ih h.2]

theorem takeWhile_isSpace (text : List UInt8) : ∀ c ∈ text.takeWhile isSpace, isSpace c = true :=
  fun _ hc => List.mem_takeWhile_imp hc

/-- A text is white space and a last word, which may be empty, or a first word is followed
by white space. -/
theorem split_word (text : List UInt8) :
    (∃ ws word, text = ws ++ word ∧ (∀ c ∈ ws, isSpace c = true) ∧ ∀ c ∈ word, isSpace c = false) ∨
      ∃ ws word sep rest, text = ws ++ word ++ sep :: rest ∧ (∀ c ∈ ws, isSpace c = true) ∧ IsWord word ∧
        isSpace sep = true := by
  have htext : text.takeWhile isSpace ++ text.dropWhile isSpace = text := List.takeWhile_append_dropWhile
  have hrest : (text.dropWhile isSpace).takeWhile (!isSpace ·) ++ (text.dropWhile isSpace).dropWhile (!isSpace ·) =
    text.dropWhile isSpace := List.takeWhile_append_dropWhile
  have hword : ∀ c ∈ (text.dropWhile isSpace).takeWhile (!isSpace ·), isSpace c = false :=
    fun c hc => by simpa using List.mem_takeWhile_imp hc
  cases htail : (text.dropWhile isSpace).dropWhile (!isSpace ·) with
  | nil =>
    rw [htail, List.append_nil] at hrest
    exact .inl ⟨_, _, by rw [hrest, htext], takeWhile_isSpace text, hword⟩
  | cons sep rest =>
    rw [htail] at hrest
    have hsep : isSpace sep = true := by
      have := List.head_dropWhile_not (!isSpace ·) (l := text.dropWhile isSpace) (by rw [htail]; simp)
      simpa [htail] using this
    refine .inr ⟨_, _, sep, rest, by rw [List.append_assoc, hrest, htext], takeWhile_isSpace text, ⟨?_, hword⟩, hsep⟩
    intro hnil
    -- what follows the white space does not begin with white space
    rw [hnil, List.nil_append] at hrest
    have := List.head_dropWhile_not isSpace (l := text) (by rw [← hrest]; simp)
    simp [← hrest, hsep] at this

/-! ### Extraction -/

theorem extractWord_ofBytes {ws word : List UInt8} {sep : UInt8} (hws : ∀ c ∈ ws, isSpace c = true)
    (h : IsWord word) (hsep : isSpace sep = true) (rest : List UInt8) :
    (ofBytes (ws ++ word ++ sep :: rest)).extractWord = (word, ofBytes (sep :: rest)) := by
  have hdrop : (ws ++ word ++ sep :: rest).dropWhile isSpace = word ++ sep :: rest := by
    rw [List.append_assoc, List.dropWhile_append_of_pos hws]
    obtain ⟨c, word, rfl⟩ := List.exists_cons_of_ne_nil h.1
    exact List.dropWhile_cons_of_neg (by simp [h.2 c (by simp)])
  have hnot : ∀ c ∈ word, (!isSpace c) = true := fun c hc => by simp [h.2 c hc]
  have htake : (word ++ sep :: rest).takeWhile (!isSpace ·) = word := by
    rw [List.takeWhile_append_of_pos hnot, List.takeWhile_cons_of_neg (by simp [hsep]), List.append_nil]
  have htail : (word ++ sep :: rest).dropWhile (!isSpace ·) = sep :: rest := by
    rw [List.dropWhile_append_of_pos hnot, List.dropWhile_cons_of_neg (by simp [hsep])]
  rw [extractWord, if_pos (ofBytes_good _)]
  simp only [ofBytes_rest, hdrop, htake, htail]
  simp [ofBytes, h.1]

/-- The last word takes the stream to its end. -/
theorem extractWord_last {ws word : List UInt8} (hws : ∀ c ∈ ws, isSpace c = true) (h : IsWord word) :
    (ofBytes (ws ++ word)).extractWord = (word, { rest := [], eofbit := true }) := by
  have hdrop : (ws ++ word).dropWhile isSpace = word := by
    rw [List.dropWhile_append_of_pos hws]
    obtain ⟨c, word, rfl⟩ := List.exists_cons_of_ne_nil h.1
    exact List.dropWhile_cons_of_neg (by simp [h.2 c (by simp)])
  have hnot : ∀ c ∈ word, (!isSpace c) = true := fun c hc => by simp [h.2 c hc]
  rw [extractWord, if_pos (ofBytes_good _)]
  simp only [ofBytes_rest, hdrop, List.takeWhile_eq_self_iff.mpr hnot, List.dropWhile_eq_nil_iff.mpr hnot]
  simp [ofBytes, h.1]

theorem extractWord_word {word : List UInt8} {sep : UInt8} (h : IsWord word) (hsep : isSpace sep = true)
    (rest : List UInt8) : (ofBytes (word ++ sep :: rest)).extractWord = (word, ofBytes (sep :: rest)) := by
  have hws : ∀ c ∈ ([] : List UInt8), isSpace c = true := by simp
  exact extractWord_ofBytes hws h hsep rest

theorem extractWord_sep {word : List UInt8} {c sep : UInt8} (hc : isSpace c = true) (h : IsWord word)
    (hsep : isSpace sep = true) (rest : List UInt8) :
    (ofBytes (c :: (word ++ sep :: rest))).extractWord = (word, ofBytes (sep :: rest)) := by
  have hws : ∀ c' ∈ [c], isSpace c' = true := by simpa using hc
  exact extractWord_ofBytes hws h hsep rest

theorem getline_ofBytes {line : List UInt8} {delim : UInt8} (h : delim ∉ line) (rest : List UInt8) :
    (ofBytes (line ++ delim :: rest)).getline delim = (line, ofBytes rest) := by
  have hline : ∀ c ∈ line, (decide (c ≠ delim)) = true := fun c hc => decide_eq_true fun he => h (he ▸ hc)
  rw [getline, if_pos (ofBytes_good _)]
  simp only [ofBytes_rest]
  rw [List.takeWhile_append_of_pos hline, List.dropWhile_append_of_pos hline,
    List.takeWhile_cons_of_neg (by simp), List.dropWhile_cons_of_neg (by simp), List.append_nil]
  rfl

/-- `std::ws` takes the white space a line begins with. -/
theorem skipWs_getline {line : List UInt8} {delim : UInt8} (h : delim ∉ line)
    (hdelim : isSpace delim = false) (rest : List UInt8) :
    (ofBytes (line ++ delim :: rest)).skipWs.getline delim = (line.dropWhile isSpace, ofBytes rest) := by
  have hskip : (ofBytes (line ++ delim :: rest)).skipWs =
      ofBytes (line.dropWhile isSpace ++ delim :: rest) := by
    have hdrop : (line ++ delim :: rest).dropWhile isSpace = line.dropWhile isSpace ++ delim :: rest := by
      rw [List.dropWhile_append]
      split_ifs with hempty
      · rw [List.isEmpty_iff.mp hempty, List.dropWhile_cons_of_neg (by simp [hdelim]), List.nil_append]
      · rfl
    rw [skipWs, if_pos (ofBytes_good _)]
    simp only [ofBytes_rest, hdrop]
    simp [ofBytes]
  rw [hskip, getline_ofBytes (fun hmem => h ((List.dropWhile_suffix _).subset hmem)) rest]

/-! ### Texts that end within a word -/

theorem isWord_append {word : List UInt8} {d : UInt8} (hword : ∀ c ∈ word, isSpace c = false)
    (hd : isSpace d = false) : IsWord (word ++ [d]) := by
  refine ⟨by simp, fun c hc => ?_⟩
  rcases List.mem_append.mp hc with hc | hc
  · exact hword c hc
  · rwa [List.mem_singleton.mp hc]

section
variable {text : List UInt8} {d : UInt8} (hd : isSpace d = false)
include hd

theorem words_append_ne_nil : words (text ++ [d]) ≠ [] := by
  rcases split_word text with ⟨ws, word, rfl, hws, hword⟩ | ⟨ws, word, sep, rest, rfl, hws, hword, hsep⟩
  · rw [List.append_assoc, words_append_of_isSpace hws, words_of_isWord (isWord_append hword hd)]
    simp
  · rw [List.append_assoc, List.append_assoc, words_append_of_isSpace hws, List.cons_append,
      words_append_sep hword hsep]
    simp

theorem eq_of_words_singleton {t : List UInt8} (h : words (text ++ [d]) = [t]) :
    ∃ ws word, text = ws ++ word ∧ (∀ c ∈ ws, isSpace c = true) ∧ (∀ c ∈ word, isSpace c = false) ∧
      t = word ++ [d] := by
  rcases split_word text with ⟨ws, word, rfl, hws, hword⟩ | ⟨ws, word, sep, rest, rfl, hws, hword, hsep⟩
  · refine ⟨ws, word, rfl, hws, hword, ?_⟩
    rw [List.append_assoc, words_append_of_isSpace hws, words_of_isWord (isWord_append hword hd)] at h
    exact (List.cons.inj h).1.symm
  · rw [List.append_assoc, List.append_assoc, words_append_of_isSpace hws, List.cons_append,
      words_append_sep hword hsep] at h
    exact absurd (List.cons.inj h).2 (words_append_ne_nil hd)

/-- The first of several words, from a stream in which the text goes on. -/
theorem extractWord_of_words {t u : List UInt8} {ts : List (List UInt8)} (h : words (text ++ [d]) = t :: u :: ts)
    (rest : List UInt8) : ∃ text', words (text' ++ [d]) = u :: ts ∧
      (ofBytes (text ++ d :: rest)).extractWord = (t, ofBytes (text' ++ d :: rest)) := by
  rcases split_word text with ⟨ws, word, rfl, hws, hword⟩ | ⟨ws, word, sep, tail, rfl, hws, hword, hsep⟩
  · rw [List.append_assoc, words_append_of_isSpace hws, words_of_isWord (isWord_append hword hd)] at h
    cases h
  · rw [List.append_assoc, List.append_assoc, words_append_of_isSpace hws, List.cons_append,
      words_append_sep hword hsep] at h
    obtain ⟨rfl, htail⟩ := List.cons.inj h
    refine ⟨sep :: tail, by rw [List.cons_append, words_cons_of_isSpace hsep, htail], ?_⟩
    have hextract := extractWord_ofBytes hws hword hsep (tail ++ d :: rest)
    rwa [← List.cons_append, ← List.append_assoc] at hextract

/-- A text is continued within its last word. -/
theorem words_continued (text : List UInt8) : ∃ init last, words (text ++ [d]) = init ++ [last] ∧
    ∀ (c sep : UInt8) (rest : List UInt8), isSpace c = false → isSpace sep = true →
      words (text ++ d :: c :: sep :: rest) = init ++ (last ++ [c]) :: words rest := by
  induction hn : text.length using Nat.strong_induction_on generalizing text with
  | _ n ih =>
    rcases split_word text with ⟨ws, word, rfl, hws, hword⟩ | ⟨ws, word, sep, tail, rfl, hws, hword, hsep⟩
    · refine ⟨[], word ++ [d], ?_, fun c sep rest hc hsep => ?_⟩
      · rw [List.append_assoc, words_append_of_isSpace hws, words_of_isWord (isWord_append hword hd)]
        rfl
      · have hlast := isWord_append (isWord_append hword hd).2 hc
        rw [List.append_assoc, words_append_of_isSpace hws, List.nil_append, ← words_append_sep hlast hsep]
        simp
    · obtain ⟨init, last, hwords, hmore⟩ := ih tail.length (by rw [← hn]; simp; omega) tail rfl
      refine ⟨word :: init, last, ?_, fun c sep' rest hc hsep' => ?_⟩
      · rw [List.append_assoc, List.append_assoc, words_append_of_isSpace hws, List.cons_append,
          words_append_sep hword hsep, hwords, List.cons_append]
      · rw [List.append_assoc, List.append_assoc, words_append_of_isSpace hws, List.cons_append,
          words_append_sep hword hsep, hmore c sep' rest hc hsep', List.cons_append]

end

/-- The words a stream still has. Past its end it gives empty words. -/
inductive Reads : IStream → List (List UInt8) → Prop where
  | more {text : List UInt8} {d : UInt8} {ts : List (List UInt8)} (hd : isSpace d = false)
      (h : words (text ++ [d]) = ts) : Reads (ofBytes (text ++ [d])) ts
  | done {s : IStream} (h : s.good = false) : Reads s []

namespace Reads
variable {s : IStream} {ts : List (List UInt8)}

theorem good_eq_false (h : Reads s []) : s.good = false := by
  cases h with
  | more hd hts => exact absurd hts (words_append_ne_nil hd)
  | done hs => exact hs

theorem eq_ofBytes {t : List UInt8} (h : Reads s (t :: ts)) :
    ∃ text d, isSpace d = false ∧ words (text ++ [d]) = t :: ts ∧ s = ofBytes (text ++ [d]) := by
  cases h with
  | more hd hts => exact ⟨_, _, hd, hts, rfl⟩

theorem extractWord (h : Reads s ts) : s.extractWord.1 = ts.headD [] ∧ Reads s.extractWord.2 ts.tail := by
  cases ts with
  | nil =>
    rw [IStream.extractWord, h.good_eq_false]
    exact ⟨rfl, .done (by simp [good])⟩
  | cons t ts =>
    obtain ⟨text, d, hd, hts, rfl⟩ := h.eq_ofBytes
    cases ts with
    | nil =>
      obtain ⟨ws, word, rfl, hws, hword, rfl⟩ := eq_of_words_singleton hd hts
      rw [List.append_assoc, extractWord_last hws (isWord_append hword hd)]
      exact ⟨rfl, .done rfl⟩
    | cons u ts =>
      obtain ⟨text', hts', hextract⟩ := extractWord_of_words hd hts []
      rw [hextract]
      exact ⟨rfl, .more hd hts'⟩

end Reads

end Iostream.IStream

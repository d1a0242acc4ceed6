import GitCrypt.EncryptedFiles

/-! How `status` reads the listing of `git ls-files -cotsz`, and what the entries it passes
over do to those after them. -/
namespace GitCrypt
open Iostream IStream

/-! ### The loop -/

/-- One turn of the loop of `status`: the name and the object it examines, none where it goes
on before it has read a name. -/
def readStatusEntry (output : IStream) : Option (Bytes × Bytes) × IStream :=
  let (tag, s) := output.extractWord
  if tag = str "?" then
    let (filename, s) := s.skipWs.getline 0
    (some (filename, []), s)
  else
    let (mode, s) := s.extractWord
    let (objectId, s) := s.extractWord
    let (_stage, s) := s.extractWord
    if !isGitFileMode mode then (none, s)
    else
      let (filename, s) := s.skipWs.getline 0
      (some (filename, objectId), s)

private theorem readStatusEntry_rest_le (s : IStream) :
    (readStatusEntry s).2.rest.length ≤ s.extractWord.2.rest.length := by
  have hname (s : IStream) : (s.skipWs.getline 0).2.rest.length ≤ s.rest.length :=
    (getline_rest_le _ 0).trans (skipWs_rest_le s)
  unfold readStatusEntry
  dsimp only
  have hword₁ := extractWord_rest_le s.extractWord.2
  have hword₂ := extractWord_rest_le s.extractWord.2.extractWord.2
  have hword₃ := extractWord_rest_le s.extractWord.2.extractWord.2.extractWord.2
  split_ifs
  · exact hname _
  · exact hword₃.trans (hword₂.trans hword₁)
  · exact (hname _).trans (hword₃.trans (hword₂.trans hword₁))

/-- The names and objects `status` examines, one after the other. -/
def readStatusListing (output : IStream) : List (Bytes × Bytes) :=
  if _h : output.peek.1.isSome = true then
    (readStatusEntry output.peek.2).1.toList ++ readStatusListing (readStatusEntry output.peek.2).2
  else []
termination_by output.rest.length
decreasing_by exact lt_of_le_of_lt (readStatusEntry_rest_le _) (peek_extractWord_lt _h)

/-- The same for what the subprocess has printed. -/
def examined (listing : Bytes) : List (Bytes × Bytes) := readStatusListing (outputStream listing)

/-! ### The listing -/

/-- A line of the listing: `? NAME NUL`, or a tag and the entry of the index. -/
inductive StatusEntry where
  | untracked (name : Bytes) (name_noNul : (0 : UInt8) ∉ name)
  | tracked (tag : UInt8) (entry : IndexEntry) (tag_isTag : isSpace tag = false ∧ tag ≠ 63)

namespace StatusEntry

def line : StatusEntry → Bytes
  | untracked name _ => 63 :: 32 :: (name ++ [0])
  | tracked tag entry _ => tag :: 32 :: entry.line

def isTracked : StatusEntry → Bool
  | untracked .. => false
  | tracked .. => true

def isFile : StatusEntry → Bool
  | untracked .. => true
  | tracked _ entry _ => entry.isFile

def name : StatusEntry → Bytes
  | untracked name _ => name
  | tracked _ entry _ => entry.name

end StatusEntry

/-! ### Turns -/

theorem readStatusListing_ofBytes {text : Bytes} (h : text ≠ []) : readStatusListing (ofBytes text) =
    (readStatusEntry (ofBytes text)).1.toList ++ readStatusListing (readStatusEntry (ofBytes text)).2 := by
  have hpeek : (ofBytes text).peek.1.isSome = true := by
    rw [Option.isSome_iff_ne_none, ne_eq, peek_none_iff rfl]
    exact h
  rw [readStatusListing, dif_pos hpeek, peek_of_cons rfl h]
  rfl

theorem readStatusListing_nil : readStatusListing (ofBytes []) = [] := by
  rw [readStatusListing]
  rfl

theorem examined_eq (listing : Bytes) : examined listing = readStatusListing (ofBytes listing) := by
  cases listing with
  | nil =>
    rw [readStatusListing_nil, examined, readStatusListing]
    rfl
  | cons c listing => rfl

/-- A turn on an entry with a tag, from the four words it takes. -/
theorem readStatusEntry_tracked {s s₁ s₂ s₃ s₄ : IStream} {tag mode objectId stage : Bytes}
    (htag : s.extractWord = (tag, s₁)) (hne : tag ≠ str "?") (hmode : s₁.extractWord = (mode, s₂))
    (hobject : s₂.extractWord = (objectId, s₃)) (hstage : s₃.extractWord = (stage, s₄)) :
    readStatusEntry s = if isGitFileMode mode = true
      then (some ((s₄.skipWs.getline 0).1, objectId), (s₄.skipWs.getline 0).2) else (none, s₄) := by
  unfold readStatusEntry
  simp only [htag, hmode, hobject, hstage, if_neg hne]
  by_cases hfile : isGitFileMode mode = true
  · simp [hfile]
  · simp [hfile]

theorem readStatusListing_untracked {name : Bytes} (h : (0 : UInt8) ∉ name) (rest : Bytes) :
    readStatusListing (ofBytes (StatusEntry.line (.untracked name h) ++ rest)) =
      (stripped name, []) :: readStatusListing (ofBytes rest) := by
  have hmark : IsWord [63] := by decide
  have htag := extractWord_word hmark (show isSpace 32 = true from rfl) (name ++ 0 :: rest)
  have hblank : (0 : UInt8) ∉ 32 :: name := by simpa using h
  have hname := skipWs_getline hblank (show isSpace 0 = false from rfl) rest
  rw [List.singleton_append] at htag
  rw [List.cons_append] at hname
  rw [StatusEntry.line, List.cons_append, List.cons_append, List.append_assoc, List.singleton_append,
    readStatusListing_ofBytes (by simp), readStatusEntry]
  simp only [htag, hname]
  rfl

/-- A turn that begins at the tag of an entry, whatever word the tag is part of. -/
theorem readStatusListing_entry {ws word : Bytes} (hws : ∀ c ∈ ws, isSpace c = true) (hword : IsWord word)
    (hne : word ≠ str "?") (e : IndexEntry) (rest : Bytes) :
    readStatusListing (ofBytes (ws ++ word ++ 32 :: (e.line ++ rest))) =
      if e.isFile = true then (stripped e.name, e.objectId) :: readStatusListing (ofBytes rest)
      else readStatusListing (ofBytes (9 :: (e.name ++ 0 :: rest))) := by
  have hblank : isSpace 32 = true := rfl
  have htag := extractWord_ofBytes hws hword hblank (e.line ++ rest)
  have hmode := extractWord_sep hblank (isWord_octal e.mode) hblank
    (e.objectId ++ 32 :: (e.stage ++ 9 :: (e.name ++ 0 :: rest)))
  have hobject := extractWord_sep hblank e.objectId_isWord hblank (e.stage ++ 9 :: (e.name ++ 0 :: rest))
  have hstage := extractWord_sep hblank e.stage_isWord (show isSpace 9 = true from rfl) (e.name ++ 0 :: rest)
  have htab : (0 : UInt8) ∉ 9 :: e.name := by simpa using e.name_noNul
  have hname := skipWs_getline htab (show isSpace 0 = false from rfl) rest
  have hline : 32 :: (e.line ++ rest) = 32 :: (octal e.mode ++ 32 :: (e.objectId ++ 32 :: (e.stage ++ 9 ::
      (e.name ++ 0 :: rest)))) := by
    simp [IndexEntry.line]
  rw [List.cons_append] at hname
  rw [hline] at htag
  rw [readStatusListing_ofBytes (by simp), hline, readStatusEntry_tracked htag hne hmode hobject hstage,
    isGitFileMode_octal, hname]
  by_cases hfile : e.isFile = true
  · rw [if_pos hfile, if_pos hfile]
    rfl
  · rw [if_neg hfile, if_neg hfile]
    rfl

/-! ### Getting back in step -/

/-- Words that are skipped four at a time, with one left over that joins the next tag. -/
def Resyncs : List Bytes → Prop
  | [_] => True
  | tag :: mode :: _ :: _ :: rest => tag ≠ str "?" ∧ isGitFileMode mode = false ∧ Resyncs rest
  | _ => False

/-- A name after which `status` is back in step. -/
def NameResyncs (name : Bytes) : Prop := Resyncs (words (name ++ [0]))

/-- The words of a name and the NUL after it, as a turn reads them. -/
theorem extractWord_of_nameWords {text t u : Bytes} {ts : List Bytes} (h : words (text ++ [0]) = t :: u :: ts)
    (rest : Bytes) : ∃ text', words (text' ++ [0]) = u :: ts ∧
      (ofBytes (text ++ 0 :: rest)).extractWord = (t, ofBytes (text' ++ 0 :: rest)) :=
  extractWord_of_words rfl h rest

/-- Four words that are not the last are one turn. -/
private theorem readStatusListing_four {text tag mode objectId stage : Bytes} {ts : List Bytes} (hts : ts ≠ [])
    (h : words (text ++ [0]) = tag :: mode :: objectId :: stage :: ts) (htag : tag ≠ str "?") (rest : Bytes) :
    ∃ text', words (text' ++ [0]) = ts ∧ readStatusListing (ofBytes (text ++ 0 :: rest)) =
      if isGitFileMode mode = true then
        (((ofBytes (text' ++ 0 :: rest)).skipWs.getline 0).1, objectId) ::
          readStatusListing ((ofBytes (text' ++ 0 :: rest)).skipWs.getline 0).2
      else readStatusListing (ofBytes (text' ++ 0 :: rest)) := by
  obtain ⟨t, ts, rfl⟩ := List.exists_cons_of_ne_nil hts
  obtain ⟨text₁, h₁, htag'⟩ := extractWord_of_nameWords h rest
  obtain ⟨text₂, h₂, hmode⟩ := extractWord_of_nameWords h₁ rest
  obtain ⟨text₃, h₃, hobject⟩ := extractWord_of_nameWords h₂ rest
  obtain ⟨text₄, h₄, hstage⟩ := extractWord_of_nameWords h₃ rest
  refine ⟨text₄, h₄, ?_⟩
  rw [readStatusListing_ofBytes (by simp), readStatusEntry_tracked htag' htag hmode hobject hstage]
  by_cases hfile : isGitFileMode mode = true
  · rw [if_pos hfile, if_pos hfile]
    rfl
  · rw [if_neg hfile, if_neg hfile]
    rfl

/-- What may follow a name: nothing, or an entry with a tag. -/
def BeginsTracked (rest : Bytes) : Prop :=
  rest = [] ∨ ∃ tag e rest', isSpace tag = false ∧ tag ≠ 63 ∧ rest = tag :: 32 :: (IndexEntry.line e ++ rest')

/-- The last word of a name is read together with the tag that follows it. -/
private theorem readStatusListing_joined {ws word rest : Bytes} (hws : ∀ c ∈ ws, isSpace c = true)
    (hword : ∀ c ∈ word, isSpace c = false) (hrest : BeginsTracked rest) :
    readStatusListing (ofBytes (ws ++ word ++ 0 :: rest)) = readStatusListing (ofBytes rest) := by
  rcases hrest with rfl | ⟨tag, e, rest', htag, hne, rfl⟩
  · have hlast := extractWord_last hws (isWord_append hword (show isSpace 0 = false from rfl))
    rw [← List.append_assoc] at hlast
    have hend (s : IStream) (hs : s.good = false) : s.extractWord = ([], { s with failbit := true }) := by
      rw [extractWord, hs]
      rfl
    have hmark : word ++ [0] ≠ str "?" := by
      intro he
      have h0 : (0 : UInt8) ∈ str "?" := by rw [← he]; simp
      exact absurd h0 (by decide)
    rw [readStatusListing_nil, readStatusListing_ofBytes (by simp),
      readStatusEntry_tracked hlast hmark (hend _ rfl) (hend _ rfl) (hend _ rfl)]
    change readStatusListing _ = []
    rw [readStatusListing]
    rfl
  · have htagWord : IsWord [tag] := ⟨by simp, by simpa using htag⟩
    have htagMark : [tag] ≠ str "?" := fun he => hne (List.cons.inj he).1
    have hjoined : IsWord (word ++ [0, tag]) := by
      refine ⟨by simp, fun c hc => ?_⟩
      rcases List.mem_append.mp hc with hc | hc
      · exact hword c hc
      · simp only [List.mem_cons, List.not_mem_nil, or_false] at hc
        rcases hc with rfl | rfl
        · rfl
        · exact htag
    have hmark : word ++ [0, tag] ≠ str "?" := fun he => by simpa [str] using congrArg List.length he
    have hleft := readStatusListing_entry hws hjoined hmark e rest'
    have hnone : ∀ c ∈ ([] : Bytes), isSpace c = true := by simp
    have hright := readStatusListing_entry hnone htagWord htagMark e rest'
    simp only [List.nil_append, List.append_assoc, List.cons_append] at hleft hright ⊢
    rw [hleft, hright]

/-- After a name that resyncs, the rest is read as if the name had not been there. -/
private theorem readStatusListing_resyncs {text rest : Bytes} (h : NameResyncs text) (hrest : BeginsTracked rest) :
    readStatusListing (ofBytes (text ++ 0 :: rest)) = readStatusListing (ofBytes rest) := by
  unfold NameResyncs at h
  generalize hts : words (text ++ [0]) = ts at h
  induction ts using Resyncs.induct generalizing text with
  | case1 t =>
    obtain ⟨ws, word, rfl, hws, hword, -⟩ := eq_of_words_singleton rfl hts
    exact readStatusListing_joined hws hword hrest
  | case2 tag mode objectId stage ts ih =>
    obtain ⟨htag, hmode, hresyncs⟩ := h
    have hne : ts ≠ [] := by
      rintro rfl
      exact hresyncs
    obtain ⟨text', hts', hturn⟩ := readStatusListing_four hne hts htag rest
    rw [hturn, if_neg (by simp [hmode]), ih hts' hresyncs]
  | case3 ts h₁ h₂ =>
    rw [Resyncs.eq_3 ts h₁ h₂] at h
    exact h.elim

/-- Whatever is passed over ends in step, and no untracked file follows it. -/
def Resynchronises : List StatusEntry → Prop
  | [] => True
  | e :: entries => (e.isFile = false → NameResyncs e.name ∧ ∀ next, entries.head? = some next →
      next.isTracked = true) ∧ Resynchronises entries

private theorem nameResyncs_tab {name : Bytes} (h : NameResyncs name) : NameResyncs (9 :: name) := by
  unfold NameResyncs
  rw [List.cons_append, words_cons_of_isSpace rfl]
  exact h

/-- An entry with a tag, at the start of the listing. -/
theorem readStatusListing_line (tag : UInt8) (e : IndexEntry) (htag : isSpace tag = false ∧ tag ≠ 63)
    (rest : Bytes) : readStatusListing (ofBytes (StatusEntry.line (.tracked tag e htag) ++ rest)) =
      if e.isFile = true then (stripped e.name, e.objectId) :: readStatusListing (ofBytes rest)
      else readStatusListing (ofBytes (9 :: (e.name ++ 0 :: rest))) := by
  have hnone : ∀ c ∈ ([] : Bytes), isSpace c = true := by simp
  have htagWord : IsWord [tag] := ⟨by simp, by simpa using htag.1⟩
  exact readStatusListing_entry hnone htagWord (fun he => htag.2 (List.cons.inj he).1) e rest

private theorem readStatusListing_filter {entries : List StatusEntry} (h : Resynchronises entries) :
    readStatusListing (ofBytes (entries.flatMap (·.line))) =
      readStatusListing (ofBytes ((entries.filter (·.isFile)).flatMap (·.line))) := by
  induction entries with
  | nil => rfl
  | cons e entries ih =>
    obtain ⟨hstep, hentries⟩ := h
    cases e with
    | untracked name hname =>
      rw [List.filter_cons_of_pos rfl, List.flatMap_cons, List.flatMap_cons, readStatusListing_untracked,
        readStatusListing_untracked, ih hentries]
    | tracked tag e htag =>
      rw [List.flatMap_cons, readStatusListing_line]
      by_cases hfile : e.isFile = true
      · rw [if_pos hfile, List.filter_cons_of_pos (by exact hfile), List.flatMap_cons, readStatusListing_line,
          if_pos hfile, ih hentries]
      · rw [if_neg hfile, List.filter_cons_of_neg (by exact hfile), ← ih hentries]
        obtain ⟨hresyncs, hnext⟩ := hstep (by simpa [StatusEntry.isFile] using hfile)
        refine readStatusListing_resyncs (nameResyncs_tab hresyncs) ?_
        cases entries with
        | nil => exact .inl rfl
        | cons next entries =>
          cases next with
          | untracked name hname => exact absurd (hnext _ rfl) (by simp [StatusEntry.isTracked])
          | tracked tag' e' htag' =>
            exact .inr ⟨tag', e', entries.flatMap (·.line), htag'.1, htag'.2, by rw [List.flatMap_cons]; rfl⟩

/-! ### Getting out of step -/

/-- The object of the first file examined, by the words of the listing. -/
def firstObject : List Bytes → Option Bytes
  | [] => none
  | tag :: ts =>
    if tag = str "?" then some []
    else if isGitFileMode (ts.headD []) = true then some (ts.tail.headD [])
    else firstObject (ts.drop 3)
termination_by ts => ts.length

private theorem firstObject_eq {s : IStream} {ts : List Bytes} (h : Reads s ts) :
    ((readStatusListing s).head?).map (·.2) = firstObject ts := by
  induction hn : ts.length using Nat.strong_induction_on generalizing s ts with
  | _ n ih =>
    cases ts with
    | nil =>
      rw [readStatusListing, dif_neg (by simp [peek, h.good_eq_false]), firstObject]
      rfl
    | cons tag ts =>
      obtain ⟨text, d, hd, -, rfl⟩ := h.eq_ofBytes
      obtain ⟨htag, h₁⟩ := h.extractWord
      obtain ⟨hmode, h₂⟩ := h₁.extractWord
      obtain ⟨hobject, h₃⟩ := h₂.extractWord
      obtain ⟨-, h₄⟩ := h₃.extractWord
      rw [readStatusListing_ofBytes (by simp), firstObject]
      by_cases hmark : tag = str "?"
      · unfold readStatusEntry
        simp only [htag, List.headD_cons, hmark, if_true]
        rfl
      · have hne : (ofBytes (text ++ [d])).extractWord.1 ≠ str "?" := by rwa [htag]
        have hturn := readStatusEntry_tracked (Prod.mk.eta.symm : (ofBytes (text ++ [d])).extractWord = _) hne
          Prod.mk.eta.symm Prod.mk.eta.symm Prod.mk.eta.symm
        rw [hmode, hobject] at hturn
        rw [if_neg hmark, hturn]
        by_cases hfile : isGitFileMode (ts.headD []) = true
        · rw [List.tail_cons, if_pos hfile, if_pos hfile]
          rfl
        · rw [List.tail_cons, if_neg hfile, if_neg hfile]
          exact ih (ts.drop 3).length (by rw [← hn]; simp) (by simpa [← List.drop_one, List.drop_drop] using h₄) rfl

private theorem stage_isWord_zero : IsWord (str "0") := by decide +kernel

private theorem noNul_f : (0 : UInt8) ∉ str "f" := by decide +kernel

/-- A file `f` with some object. -/
def plainFile (objectId : Bytes) (h : IsWord objectId) : IndexEntry where
  mode := 0o100644
  objectId := objectId
  stage := str "0"
  name := str "f"
  objectId_isWord := h
  stage_isWord := stage_isWord_zero
  name_noNul := noNul_f

/-- Words that do not resync hide the object that follows, or put another one before it. -/
private theorem firstObject_ne {init : List Bytes} {last : Bytes} (h : ¬ Resyncs (init ++ [last])) (joined : Bytes) :
    ∃ other, ∀ objectId, objectId ≠ other → objectId ≠ [] → objectId ≠ str "?" →
      isGitFileMode objectId = false →
      firstObject (init ++ joined :: [octal 0o100644, objectId, str "0", str "f" ++ [0]]) ≠ some objectId := by
  have hdigit : isGitFileMode (str "0") = false := by decide +kernel
  have hname : isGitFileMode (str "f" ++ [0]) = false := by decide +kernel
  have hzero : str "0" ≠ str "?" := by decide
  have hmode : octal 0o100644 ≠ str "?" := fun he => by
    have hlen := congrArg List.length he
    simp only [octal, List.length_append, List.length_replicate, str] at hlen
    simp at hlen
  induction hn : init.length using Nat.strong_induction_on generalizing init with
  | _ n ih =>
    rcases init with _ | ⟨a, _ | ⟨b, _ | ⟨c, _ | ⟨d, init⟩⟩⟩⟩
    · exact absurd trivial h
    · refine ⟨octal 0o100644, fun objectId hne hnil hmark hfile => ?_⟩
      rw [List.singleton_append, firstObject]
      split_ifs
      · simpa using Ne.symm hnil
      · simpa using Ne.symm hne
      · simp [firstObject, hzero, hname]
    · refine ⟨joined, fun objectId hne hnil hmark hfile => ?_⟩
      rw [List.cons_append, firstObject]
      split_ifs
      · simpa using Ne.symm hnil
      · simpa using Ne.symm hne
      · simp [firstObject, hmark, hdigit]
    · refine ⟨c, fun objectId hne hnil hmark hfile => ?_⟩
      rw [List.cons_append, firstObject]
      split_ifs
      · simpa using Ne.symm hnil
      · simpa using Ne.symm hne
      · simp [firstObject, hmode, hfile]
    · by_cases hturn : a ≠ str "?" ∧ isGitFileMode b = false
      · have hrest : ¬ Resyncs (init ++ [last]) := fun hr => h ⟨hturn.1, hturn.2, hr⟩
        have hlt : init.length < n := by
          rw [← hn]
          simp only [List.length_cons]
          omega
        obtain ⟨other, hother⟩ := ih init.length hlt hrest rfl
        refine ⟨other, fun objectId hne hnil hmark hfile => ?_⟩
        rw [List.cons_append, firstObject, if_neg hturn.1, if_neg (by simp [hturn.2])]
        exact hother objectId hne hnil hmark hfile
      · refine ⟨c, fun objectId hne hnil hmark hfile => ?_⟩
        rw [List.cons_append, firstObject]
        split_ifs with ha hb
        · simpa using Ne.symm hnil
        · simpa using Ne.symm hne
        · exact absurd ⟨ha, by simpa using hb⟩ hturn

/-- Words that resync are passed over, and a last word before an untracked name hides it. -/
private theorem firstObject_eq_none {init : List Bytes} {last : Bytes} (h : Resyncs (init ++ [last])) {joined : Bytes}
    (hjoined : joined ≠ str "?") : firstObject (init ++ joined :: [str "f" ++ [0]]) = none := by
  have hname : isGitFileMode (str "f" ++ [0]) = false := by decide +kernel
  induction hn : init.length using Nat.strong_induction_on generalizing init with
  | _ n ih =>
    rcases init with _ | ⟨a, _ | ⟨b, _ | ⟨c, _ | ⟨d, init⟩⟩⟩⟩
    · simp [firstObject, hjoined, hname]
    · exact absurd h id
    · exact absurd h id
    · exact absurd h.2.2 id
    · obtain ⟨ha, hb, hrest⟩ := h
      rw [List.cons_append, firstObject, if_neg ha, if_neg (by simp [hb])]
      have hlt : init.length < n := by
        rw [← hn]
        simp only [List.length_cons]
        omega
      exact ih init.length hlt hrest rfl

/-- The words of the name of a link, the last one joined by what follows. -/
private theorem firstObject_link {link : IndexEntry} (hlink : link.isFile = false) {tag : UInt8}
    (htag : isSpace tag = false ∧ tag ≠ 63) : ∃ init last, words (link.name ++ [0]) = init ++ [last] ∧
      ∀ (c sep : UInt8) (rest : Bytes) (d : UInt8), isSpace c = false → isSpace sep = true → isSpace d = false →
        ((examined (StatusEntry.line (.tracked tag link htag) ++ c :: sep :: (rest ++ [d]))).head?).map (·.2) =
          firstObject (init ++ (last ++ [c]) :: words (rest ++ [d])) := by
  obtain ⟨init, last, hwords, hmore⟩ := words_continued (show isSpace 0 = false from rfl) link.name
  refine ⟨init, last, hwords, fun c sep rest d hc hsep hd => ?_⟩
  have htext : words ((9 :: (link.name ++ 0 :: c :: sep :: rest)) ++ [d]) =
      init ++ (last ++ [c]) :: words (rest ++ [d]) := by
    rw [List.cons_append, words_cons_of_isSpace rfl, ← hmore c sep (rest ++ [d]) hc hsep]
    simp
  have hreads := firstObject_eq (Reads.more hd htext)
  rw [examined_eq, readStatusListing_line, if_neg (by simp [hlink])]
  simpa using hreads

theorem isFile_plainFile {objectId : Bytes} (h : IsWord objectId) : (plainFile objectId h).isFile = true :=
  (by decide : decide ((0o100644 : UInt32).toNat &&& 0o170000 = 0o100000) = true)

private theorem words_plainFile {objectId : Bytes} (h : IsWord objectId) :
    ∃ rest, (plainFile objectId h).line = rest ++ [0] ∧
    words (rest ++ [0]) = [octal 0o100644, objectId, str "0", str "f" ++ [0]] := by
  refine ⟨octal 0o100644 ++ 32 :: (objectId ++ 32 :: (str "0" ++ 9 :: str "f")), by simp [IndexEntry.line, plainFile],
    ?_⟩
  have hstage : IsWord (str "0") := by decide +kernel
  have hname : IsWord (str "f" ++ [0]) := by decide +kernel
  simp only [List.append_assoc, List.cons_append]
  rw [words_append_sep (isWord_octal _) rfl, words_append_sep h rfl, words_append_sep hstage rfl,
    words_of_isWord hname]

private theorem examined_plainFile {objectId : Bytes} (h : IsWord objectId)
    (htag : isSpace 72 = false ∧ (72 : UInt8) ≠ 63) :
    examined (StatusEntry.line (.tracked 72 (plainFile objectId h) htag)) = [(str "f", objectId)] := by
  have hline := readStatusListing_line 72 (plainFile objectId h) htag []
  rw [List.append_nil, if_pos (isFile_plainFile h), readStatusListing_nil] at hline
  rw [examined_eq, hline]
  rfl

/-- Whatever one object is, there is another. -/
private theorem exists_objectId (other : Bytes) : ∃ objectId, objectId ≠ other ∧ IsWord objectId ∧ objectId ≠ str "?" ∧
    isGitFileMode objectId = false := by
  by_cases h : str "d670460b4b4aece5915caf5c68d12f560a9fe3e4" = other
  · refine ⟨str "e69de29bb2d1d6434b8b29ae775ad8c2e48c5391", ?_, by decide +kernel, by decide +kernel, by decide +kernel⟩
    rw [← h]
    decide +kernel
  · exact ⟨_, h, by decide +kernel, by decide +kernel, by decide +kernel⟩

/-- For every listing in which what is passed over resyncs, `status` examines what it would
without these entries. This is as much as can be asked of each of them: after any other name a
file is not examined as it is, and after none is an untracked file. -/
theorem status_passes_over_nonfiles (entries : List StatusEntry) :
    (Resynchronises entries →
      examined (entries.flatMap (·.line)) = examined ((entries.filter (·.isFile)).flatMap (·.line))) ∧
    ∀ link : StatusEntry, link.isFile = false →
      (¬ NameResyncs link.name → ∃ next : StatusEntry, next.isFile = true ∧ next.isTracked = true ∧
        examined (link.line ++ next.line) ≠ examined next.line) ∧
      (NameResyncs link.name → ∃ next : StatusEntry, next.isFile = true ∧ next.isTracked = false ∧
        examined (link.line ++ next.line) ≠ examined next.line) := by
  refine ⟨fun h => by rw [examined_eq, examined_eq, readStatusListing_filter h], ?_⟩
  intro link hlink
  cases link with
  | untracked name hname => cases hlink
  | tracked tag link htag =>
    have hnot : link.isFile = false := hlink
    obtain ⟨init, last, hwords, hfirst⟩ := firstObject_link hnot htag
    refine ⟨fun hname => ?_, fun hname => ?_⟩
    · unfold NameResyncs StatusEntry.name at hname
      rw [hwords] at hname
      obtain ⟨other, hother⟩ := firstObject_ne hname (last ++ [72])
      obtain ⟨objectId, hne, hword, hmark, hfile⟩ := exists_objectId other
      have htag' : isSpace 72 = false ∧ (72 : UInt8) ≠ 63 := by decide
      obtain ⟨rest, hrest, hwords'⟩ := words_plainFile hword
      refine ⟨.tracked 72 (plainFile objectId hword) htag', isFile_plainFile hword, rfl, fun he => ?_⟩
      have hobject := congrArg (fun pairs => (pairs.head?).map (·.2)) he
      rw [examined_plainFile, show StatusEntry.line (.tracked 72 (plainFile objectId hword) htag') =
        72 :: 32 :: (rest ++ [0]) from congrArg (fun text => 72 :: 32 :: text) hrest,
        hfirst 72 32 rest 0 rfl rfl rfl, hwords'] at hobject
      exact hother objectId hne hword.1 hmark hfile hobject
    · unfold NameResyncs StatusEntry.name at hname
      have hmem : last ∈ words (link.name ++ [0]) := by rw [hwords]; simp
      have hlast : last ≠ [] := by simpa using (List.mem_filter.mp hmem).2
      rw [hwords] at hname
      have hmark : last ++ [63] ≠ str "?" := fun he => hlast (List.append_eq_singleton_iff.mp he |>.elim (·.1) fun h => by simp at h)
      refine ⟨.untracked (str "f") (by decide), rfl, rfl, fun he => ?_⟩
      have hobject := congrArg (fun pairs => (pairs.head?).map (·.2)) he
      have hnext := readStatusListing_untracked (show (0 : UInt8) ∉ str "f" by decide) []
      have hwords' : words (str "f" ++ [0]) = [str "f" ++ [0]] := words_of_isWord (by decide +kernel)
      rw [List.append_nil] at hnext
      rw [examined_eq (StatusEntry.line _), hnext, show StatusEntry.line (.untracked (str "f") (by decide)) =
        63 :: 32 :: (str "f" ++ [0]) from rfl, hfirst 63 32 (str "f") 0 rfl rfl rfl, hwords',
        firstObject_eq_none hname hmark] at hobject
      cases hobject

private theorem linkObject_isWord : IsWord (str "2e65efe2a145dda7ee51d1741299f848e5bf752e") := by decide +kernel

private theorem fileObject_isWord : IsWord (str "d670460b4b4aece5915caf5c68d12f560a9fe3e4") := by decide +kernel

private theorem isTag_H : isSpace 72 = false ∧ (72 : UInt8) ≠ 63 := by decide

/-- A symbolic link. -/
def linkNamed (name : Bytes) (h : (0 : UInt8) ∉ name) : IndexEntry where
  mode := 0o120000
  objectId := str "2e65efe2a145dda7ee51d1741299f848e5bf752e"
  stage := str "0"
  name := name
  objectId_isWord := linkObject_isWord
  stage_isWord := stage_isWord_zero
  name_noNul := h

/-- A link and a file after it, as git lists them. -/
def linkThenFile (name : Bytes) (h : (0 : UInt8) ∉ name) : List StatusEntry :=
  [.tracked 72 (linkNamed name h) isTag_H,
    .tracked 72 (plainFile (str "d670460b4b4aece5915caf5c68d12f560a9fe3e4") fileObject_isWord) isTag_H]

theorem status_passes_over_link :
    examined ((linkThenFile (str "link") (by decide)).flatMap (·.line)) =
      examined (((linkThenFile (str "link") (by decide)).filter (·.isFile)).flatMap (·.line)) := by
  refine (status_passes_over_nonfiles _).1 ⟨fun _ => ⟨?_, ?_⟩, fun h => ?_, trivial⟩
  · rw [NameResyncs, show words _ = [str "link" ++ [0]] by decide +kernel]
    trivial
  · rintro next hnext
    cases hnext
    rfl
  · exact absurd h (by decide +kernel)

/-- After a link with a blank in its name the file is not examined. -/
theorem status_loses_file :
    examined ((linkThenFile (str "a b") (by decide)).flatMap (·.line)) = [] ∧
      examined (((linkThenFile (str "a b") (by decide)).filter (·.isFile)).flatMap (·.line)) =
        [(str "f", str "d670460b4b4aece5915caf5c68d12f560a9fe3e4")] := by
  constructor
  · decide +kernel
  · decide +kernel

end GitCrypt

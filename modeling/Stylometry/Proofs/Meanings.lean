-- What can be read off the meaning of a vocabulary. Its separators begin and end with a semicolon,
-- which is a symbol as well, and still there is one way only to read it: from the left, a symbol
-- ends before the next semicolon unless it is the semicolon itself.
import Mathlib.Data.List.Nodup
import Stylometry.Proofs.CanonicalKeys
import Stylometry.Proofs.Parts

namespace Stylometry

/-! ## Symbols -/

namespace Kind

/-- The characters of a symbol as the digits of one number. -/
def symbolNumber (k : Kind) : Nat := k.symbol.toList.foldl (fun n c => n * 256 + c.toNat) 0

theorem symbol_inj {j k : Kind} (h : j.symbol.toList = k.symbol.toList) : j = k := by
  -- numbers are compared much faster than lists of characters
  have hnodup : (all.map symbolNumber).Nodup := by decide +kernel
  have hnumber : j.symbolNumber = k.symbolNumber := by rw [symbolNumber, h, symbolNumber]
  exact List.inj_on_of_nodup_map hnodup (mem_all j) (mem_all k) hnumber

/-- No symbol is empty, and only the semicolon has a semicolon in its symbol. -/
theorem symbol_cases (k : Kind) :
    k.symbol.toList ≠ [] ∧ (k = .punctuator .Semi ∨ ';' ∉ k.symbol.toList) := by
  have hall : ∀ k ∈ all,
      k.symbol.toList ≠ [] ∧ (k = .punctuator .Semi ∨ ';' ∉ k.symbol.toList) := by decide +kernel
  exact hall k (mem_all k)

theorem symbol_ne_nil (k : Kind) : k.symbol.toList ≠ [] := (symbol_cases k).1

theorem not_mem_symbol {k : Kind} (h : k ≠ .punctuator .Semi) : ';' ∉ k.symbol.toList :=
  (symbol_cases k).2.resolve_left h

end Kind

namespace Ngram

/-- The text is at its end or at a semicolon. -/
def AtSeparator (t : Text) : Prop := ∀ c ∈ t.head?, c = ';'

theorem AtSeparator.takeWhile {t : Text} (h : AtSeparator t) : t.takeWhile (· ≠ ';') = [] := by
  cases t with
  | nil => rfl
  | cons c t =>
    have hc : c = ';' := h c rfl
    rw [List.takeWhile_cons, if_neg (by simpa using hc)]

/-- A symbol that is no semicolon goes up to the next semicolon. -/
theorem takeWhile_symbol {k : Kind} (hk : k ≠ .punctuator .Semi) {t : Text} (h : AtSeparator t) :
    (k.symbol.toList ++ t).takeWhile (· ≠ ';') = k.symbol.toList := by
  have hsymbol : ∀ c ∈ k.symbol.toList, decide (c ≠ ';') = true := by
    intro c hc
    simpa using fun heq : c = ';' => Kind.not_mem_symbol hk (heq ▸ hc)
  rw [List.takeWhile_append_of_pos hsymbol, h.takeWhile, List.append_nil]

/-- The first symbol of a text is known. -/
theorem symbol_append_inj {j k : Kind} {t u : Text} (ht : AtSeparator t) (hu : AtSeparator u)
    (h : j.symbol.toList ++ t = k.symbol.toList ++ u) : j = k ∧ t = u := by
  have hsemi : ∀ {k : Kind}, k ≠ .punctuator .Semi → ∀ {t u : Text},
      ';' :: t ≠ k.symbol.toList ++ u := by
    intro k hk t u heq
    obtain ⟨c, symbol, hsymbol⟩ := List.exists_cons_of_ne_nil k.symbol_ne_nil
    have hmem : ';' ∈ k.symbol.toList := by
      rw [hsymbol, List.cons_append] at heq
      rw [hsymbol, (List.cons.inj heq).1]
      exact List.mem_cons_self ..
    exact Kind.not_mem_symbol hk hmem
  have hkind : j = k := by
    by_cases hj : j = .punctuator .Semi
    · by_cases hk : k = .punctuator .Semi
      · rw [hj, hk]
      · subst hj
        exact absurd h (hsemi hk)
    · by_cases hk : k = .punctuator .Semi
      · subst hk
        exact absurd h.symm (hsemi hj)
      · apply Kind.symbol_inj
        rw [← takeWhile_symbol hj ht, h, takeWhile_symbol hk hu]
  subst hkind
  exact ⟨rfl, List.append_cancel_left h⟩

/-! ## Tokens with their separators -/

/-- A token that a meaning shows, and whether it is the first one of its n-gram. -/
structure Shown where
  opens : Bool
  kind : Kind

namespace Shown

/-- What stands before a token. -/
def separator (opens : Bool) : Text :=
  if opens then Vocabulary.ngramSeparator else Vocabulary.tokenSeparator

/-- The symbol of a token with the separator before it. -/
def text (s : Shown) : Text := separator s.opens ++ s.kind.symbol.toList

theorem separator_eq (opens : Bool) : separator opens = [';', if opens then 's' else 't', ';'] := by
  cases opens <;> rfl

/-- The second character of a separator tells which one it is. -/
theorem separator_append_inj {opens opens' : Bool} {t u : Text}
    (h : separator opens ++ t = separator opens' ++ u) : opens = opens' ∧ t = u := by
  rw [separator_eq, separator_eq] at h
  simp only [List.cons_append, List.nil_append, List.cons.injEq, true_and] at h
  obtain ⟨hmark, ht⟩ := h
  revert hmark
  cases opens <;> cases opens' <;> simp [ht]

theorem text_append_eq (s : Shown) (t : Text) :
    s.text ++ t = separator s.opens ++ (s.kind.symbol.toList ++ t) := by
  rw [text, List.append_assoc]

theorem text_ne_nil (s : Shown) : s.text ≠ [] := by
  rw [text, separator_eq]
  exact List.cons_ne_nil _ _

theorem atSeparator_texts (ss : List Shown) : AtSeparator (ss.flatMap text) := by
  cases ss with
  | nil => exact fun c hc => nomatch hc
  | cons s ss =>
    rw [List.flatMap_cons, text_append_eq, separator_eq]
    exact fun c hc => (Option.some.inj hc).symm

/-- Tokens can be told from their symbols with separators. -/
theorem texts_inj {ss us : List Shown} (h : ss.flatMap text = us.flatMap text) : ss = us := by
  induction ss generalizing us with
  | nil =>
    cases us with
    | nil => rfl
    | cons u us => exact absurd (List.append_eq_nil_iff.1 h.symm).1 u.text_ne_nil
  | cons s ss ih =>
    cases us with
    | nil => exact absurd (List.append_eq_nil_iff.1 h).1 s.text_ne_nil
    | cons u us =>
      rw [List.flatMap_cons, List.flatMap_cons, text_append_eq, text_append_eq] at h
      obtain ⟨hopens, hsymbols⟩ := separator_append_inj h
      obtain ⟨hkind, hrest⟩ :=
        symbol_append_inj (atSeparator_texts ss) (atSeparator_texts us) hsymbols
      obtain ⟨opens, k⟩ := s
      obtain ⟨opens', k'⟩ := u
      cases hopens
      cases hkind
      rw [ih hrest]

/-- The tokens of an n-gram. -/
def ofGram : List Kind → List Shown
  | [] => []
  | k :: ks => ⟨true, k⟩ :: ks.map (⟨false, ·⟩)

/-- Puts a token before the n-grams of the later ones. The tokens up to the next one that opens
an n-gram wait apart from them. -/
def gatherStep (s : Shown) (later : List Kind × List (List Kind)) :
    List Kind × List (List Kind) :=
  if s.opens then ([], (s.kind :: later.1) :: later.2) else (s.kind :: later.1, later.2)

/-- The n-grams that some tokens make up. -/
def gather (ss : List Shown) : List (List Kind) := (ss.foldr gatherStep ([], [])).2

theorem foldr_gatherStep_ofGram {g : List Kind} (h : g ≠ []) (grams : List (List Kind)) :
    (ofGram g).foldr gatherStep ([], grams) = ([], g :: grams) := by
  have hrest : ∀ ks : List Kind,
      (ks.map (Shown.mk false ·)).foldr gatherStep ([], grams) = (ks, grams) := by
    intro ks
    induction ks with
    | nil => rfl
    | cons k ks ih => rw [List.map_cons, List.foldr_cons, ih]; rfl
  cases g with
  | nil => exact absurd rfl h
  | cons k ks => rw [ofGram, List.foldr_cons, hrest]; rfl

/-- N-grams are gathered again from their tokens. -/
theorem gather_flatMap_ofGram {grams : List (List Kind)} (h : ∀ g ∈ grams, g ≠ []) :
    gather (grams.flatMap ofGram) = grams := by
  have hfold : (grams.flatMap ofGram).foldr gatherStep ([], []) = ([], grams) := by
    induction grams with
    | nil => rfl
    | cons g grams ih =>
      obtain ⟨hg, hgrams⟩ := List.forall_mem_cons.1 h
      rw [List.flatMap_cons, List.foldr_append, ih hgrams, foldr_gatherStep_ofGram hg]
  rw [gather, hfold]

/-- An n-gram after a separator shows its tokens. -/
theorem texts_ofGram {g : List Kind} (h : g ≠ []) :
    Vocabulary.ngramSeparator ++ windowMeaning g = (ofGram g).flatMap text := by
  cases g with
  | nil => exact absurd rfl h
  | cons k ks =>
    cases ks with
    | nil => simp [windowMeaning, ofGram, text, separator, Text.join]
    | cons l ls =>
      have hrest : Vocabulary.tokenSeparator ++ windowMeaning (l :: ls) =
          ((l :: ls).map (Shown.mk false ·)).flatMap text := by
        rw [windowMeaning, Text.append_join _ (by simp), List.flatMap_map, List.flatMap_map]
        rfl
      have hjoin : windowMeaning (k :: l :: ls) =
          k.symbol.toList ++ (Vocabulary.tokenSeparator ++ windowMeaning (l :: ls)) := by
        simp [windowMeaning, Text.join]
      rw [hjoin, hrest, ofGram, List.flatMap_cons, text_append_eq]
      rfl

theorem texts_of_grams {grams : List (List Kind)} (hne : grams ≠ []) (h : ∀ g ∈ grams, g ≠ []) :
    Vocabulary.ngramSeparator ++
        Text.join Vocabulary.ngramSeparator (grams.map windowMeaning) =
      (grams.flatMap ofGram).flatMap text := by
  rw [Text.append_join _ (by simpa using hne), List.flatMap_map, List.flatMap_assoc]
  exact List.flatMap_congr fun g hg => texts_ofGram (h g hg)

end Shown

/-! ## Meanings -/

theorem ne_nil_of_kindsOfKey? {s : String} {g : List Kind} (h : kindsOfKey? s = some g) :
    g ≠ [] := by
  unfold kindsOfKey? at h
  obtain ⟨part, parts, hparts⟩ := List.exists_cons_of_ne_nil (Text.splitOn_ne_nil '|' s.toList)
  rw [hparts, List.mapM_cons] at h
  obtain ⟨k, -, h⟩ := Option.bind_eq_some_iff.1 h
  obtain ⟨ks, -, h⟩ := Option.bind_eq_some_iff.1 h
  cases h
  exact List.cons_ne_nil k ks

/-- N-grams can be told from the texts of their symbols. -/
theorem join_windowMeaning_inj {gs hs : List (List Kind)} (hgs : ∀ g ∈ gs, g ≠ [])
    (hhs : ∀ g ∈ hs, g ≠ [])
    (h : Text.join Vocabulary.ngramSeparator (gs.map windowMeaning) =
      Text.join Vocabulary.ngramSeparator (hs.map windowMeaning)) : gs = hs := by
  have hempty : ∀ {gs : List (List Kind)}, (∀ g ∈ gs, g ≠ []) →
      Text.join Vocabulary.ngramSeparator (gs.map windowMeaning) = [] → gs = [] := by
    intro gs hgs hnil
    by_contra hne
    have htexts := Shown.texts_of_grams hne hgs
    obtain ⟨g, rest, rfl⟩ := List.exists_cons_of_ne_nil hne
    obtain ⟨k, ks, rfl⟩ := List.exists_cons_of_ne_nil (hgs _ (List.mem_cons_self ..))
    rw [hnil, List.flatMap_cons, Shown.ofGram, List.cons_append, List.flatMap_cons,
      Shown.text_append_eq] at htexts
    have hsymbol := List.append_cancel_left htexts
    exact k.symbol_ne_nil (List.append_eq_nil_iff.1 hsymbol.symm).1
  by_cases hg : gs = []
  · subst hg
    exact (hempty hhs h.symm).symm
  · by_cases hh : hs = []
    · subst hh
      exact hempty hgs h
    · have htexts := Shown.texts_of_grams hg hgs
      rw [h, Shown.texts_of_grams hh hhs] at htexts
      rw [← Shown.gather_flatMap_ofGram hgs, ← Shown.gather_flatMap_ofGram hhs,
        Shown.texts_inj htexts.symm]

namespace Vocabulary

theorem exists_grams {v : Vocabulary} (h : ∀ s ∈ v.keys, (kindsOfKey? s).isSome = true) :
    ∃ grams : List (List Kind), v.keys.map kindsOfKey? = grams.map some ∧
      (∀ g ∈ grams, g ≠ []) ∧
      v.meaning = Text.join ngramSeparator (grams.map windowMeaning) := by
  obtain ⟨o, keys⟩ := v
  have hkeys : ∃ grams : List (List Kind), keys.map kindsOfKey? = grams.map some ∧
      (∀ g ∈ grams, g ≠ []) ∧ keys.map meaningOfKey = grams.map windowMeaning := by
    induction keys with
    | nil => exact ⟨[], rfl, List.forall_mem_nil _, rfl⟩
    | cons s keys ih =>
      obtain ⟨hs, hrest⟩ := List.forall_mem_cons.1 h
      obtain ⟨g, hg⟩ := Option.isSome_iff_exists.1 hs
      obtain ⟨grams, hkinds, hne, hmeaning⟩ := ih hrest
      refine ⟨g :: grams, ?_, ?_, ?_⟩
      · rw [List.map_cons, hg, hkinds, List.map_cons]
      · exact List.forall_mem_cons.2 ⟨ne_nil_of_kindsOfKey? hg, hne⟩
      · rw [List.map_cons, meaningOfKey_of_kindsOfKey? hg, hmeaning, List.map_cons]
  obtain ⟨grams, hkinds, hne, hmeaning⟩ := hkeys
  exact ⟨grams, hkinds, hne, by rw [meaning, hmeaning]⟩

/-- Two vocabularies whose keys all spell kinds have the same meaning just when their keys spell
the same kinds. -/
theorem meaning_eq_iff {v w : Vocabulary} (hv : ∀ s ∈ v.keys, (kindsOfKey? s).isSome = true)
    (hw : ∀ s ∈ w.keys, (kindsOfKey? s).isSome = true) :
    v.meaning = w.meaning ↔ v.keys.map kindsOfKey? = w.keys.map kindsOfKey? := by
  obtain ⟨gs, hgs, hne, hmeaning⟩ := exists_grams hv
  obtain ⟨hs, hhs, hne', hmeaning'⟩ := exists_grams hw
  rw [hgs, hhs, hmeaning, hmeaning']
  constructor
  · intro h
    rw [join_windowMeaning_inj hne hne' h]
  · intro h
    have hgrams : gs = hs := List.map_injective_iff.2 (fun _ _ => Option.some.inj) h
    rw [hgrams]

/-- The bigrams `; ;` and `; (`. -/
def semicolons : Vocabulary := ⟨.bigram, ["118|118", "118|75"]⟩

/-- The same bigrams by keys with signs and zeros. -/
def signedSemicolons : Vocabulary := ⟨.bigram, ["+118|0118", "118|+75"]⟩

theorem meaning_eq_iff_semicolons :
    (∀ s ∈ semicolons.keys, (kindsOfKey? s).isSome = true) ∧
      (∀ s ∈ signedSemicolons.keys, (kindsOfKey? s).isSome = true) ∧
      semicolons.meaning = ";;t;;;s;;;t;(".toList ∧
      signedSemicolons.meaning = ";;t;;;s;;;t;(".toList ∧
      semicolons.keys ≠ signedSemicolons.keys ∧
      semicolons.keys.map kindsOfKey? = signedSemicolons.keys.map kindsOfKey? := by
  have hplain : ∀ s ∈ semicolons.keys, (kindsOfKey? s).isSome = true := by decide +kernel
  have hsigned : ∀ s ∈ signedSemicolons.keys, (kindsOfKey? s).isSome = true := by decide +kernel
  have hmeaning : semicolons.meaning = ";;t;;;s;;;t;(".toList := by decide +kernel
  have hmeaning' : signedSemicolons.meaning = ";;t;;;s;;;t;(".toList := by decide +kernel
  exact ⟨hplain, hsigned, hmeaning, hmeaning', by decide,
    (meaning_eq_iff hplain hsigned).1 (hmeaning.trans hmeaning'.symm)⟩

end Vocabulary
end Ngram
end Stylometry

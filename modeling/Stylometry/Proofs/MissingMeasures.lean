-- When the measures of a tally exist. Six numbers must not be zero; the first of them that is zero
-- gives the reason, and the other quotients of the formulas always have a divisor.
import Stylometry.Proofs.FloatCounts
import Stylometry.Proofs.Records
import Stylometry.Proofs.TallySteps

namespace Stylometry

/-! ## Numbers that must not be zero -/

/-- The computation needs the numbers not to be zero. The first one that is zero gives the reason
why it stops, and it has a result when none is. -/
def Needs (x : Except MeasureError β) (numbers : List (Nat × Degeneracy)) : Prop :=
  match numbers.find? (·.1 = 0) with
  | some r => x = .error (.degenerate r.2)
  | none => ∃ b, x = .ok b

theorem find?_zero_eq_some_iff {numbers : List (Nat × Degeneracy)} {r : Nat × Degeneracy} :
    numbers.find? (·.1 = 0) = some r ↔
      ∃ earlier later, numbers = earlier ++ r :: later ∧ (∀ q ∈ earlier, q.1 ≠ 0) ∧ r.1 = 0 := by
  rw [List.find?_eq_some_iff_append]
  constructor
  · rintro ⟨hr, earlier, later, hnumbers, hearlier⟩
    exact ⟨earlier, later, hnumbers, by simpa using hearlier, by simpa using hr⟩
  · rintro ⟨earlier, later, hnumbers, hearlier, hr⟩
    exact ⟨by simpa using hr, earlier, later, hnumbers, by simpa using hearlier⟩

namespace Needs

variable {α β : Type}

theorem ok (b : β) : Needs (.ok b) [] := ⟨b, rfl⟩

theorem bind {x : Except MeasureError α} {g : α → Except MeasureError β}
    {numbers later : List (Nat × Degeneracy)} (hx : Needs x numbers)
    (hg : ∀ a, x = .ok a → Needs (g a) later) : Needs (x >>= g) (numbers ++ later) := by
  unfold Needs at hx ⊢
  rw [List.find?_append]
  cases hfind : numbers.find? (·.1 = 0) with
  | some r =>
    rw [hfind] at hx
    rw [Option.some_or, hx]
    rfl
  | none =>
    rw [hfind] at hx
    obtain ⟨a, rfl⟩ := hx
    exact hg a rfl

theorem quotient [Scalar α] (laws : Scalar.CountLaws α) (dividend : α) {n : Nat}
    (hn : n < countLimit) (what : Divisor) :
    Needs (quotient dividend (Scalar.ofCount n) what) [(n, .zero what)] := by
  unfold Stylometry.quotient
  by_cases h : n = 0
  · subst h
    rw [if_pos ((laws.isZero_ofCount hn).2 rfl)]
    exact rfl
  · rw [if_neg (fun hzero => h ((laws.isZero_ofCount hn).1 hzero))]
    simp [Needs, h]

theorem eq_of_quotient [Scalar α] (laws : Scalar.CountLaws α) {dividend q : α} {n : Nat}
    (hn : n < countLimit) {what : Divisor}
    (h : Stylometry.quotient dividend (Scalar.ofCount n) what = .ok q) :
    0 < n ∧ dividend / Scalar.ofCount n = q := by
  unfold Stylometry.quotient at h
  split at h
  · cases h
  · next hzero =>
    refine ⟨Nat.pos_of_ne_zero ?_, Except.ok.inj h⟩
    rintro rfl
    exact hzero ((laws.isZero_ofCount hn).2 rfl)

theorem lnQuotient [Scalar α] (laws : Scalar.CountLaws α) {m n : Nat} (hm : m < countLimit)
    (hn : n < countLimit) (what : Divisor) :
    Needs (lnQuotient (Scalar.ofCount m : α) (Scalar.ofCount n) what)
      [(n, .zero what), (m, .logarithm what)] := by
  refine (quotient laws _ hn what).bind ?_
  intro q hq
  obtain ⟨hpos, rfl⟩ := eq_of_quotient laws hn hq
  by_cases h : m = 0
  · subst h
    simp only [laws.zero_div hpos hn]
    exact rfl
  · simp only [laws.pos_div (Nat.pos_of_ne_zero h) hm hpos hn]
    simp [Needs, h]
    exact ⟨_, rfl⟩

end Needs

/-! ## Operators and operands -/

namespace HalsteadCounts

/-- The reason why counts without operands have no measures. -/
def noOperands (c : HalsteadCounts) : Degeneracy :=
  if c.distinctOperators = 0 then .emptyVocabulary else .noOperands

theorem Fit.needs_measure [Scalar α] {c : HalsteadCounts} (h : c.Fit) :
    Needs (c.measure (α := α)) [(c.distinctOperands, c.noOperands)] := by
  unfold measure noOperands
  rw [h.sum_vocabulary, h.sum_length, vocabulary]
  by_cases hoperands : c.distinctOperands = 0
  · by_cases hoperators : c.distinctOperators = 0
    · simp [Needs, hoperands, hoperators, Bind.bind, Except.bind]
      rfl
    · simp [Needs, hoperands, hoperators, Bind.bind, Except.bind]
      rfl
  · simp [Needs, hoperands, Bind.bind, Except.bind]
    exact ⟨_, rfl⟩

end HalsteadCounts

/-! ## The measures of a tally -/

namespace Tally

variable {α : Type}

/-- No count that a quotient is made of is too large for 64 bits. -/
structure CountsFit (s : Tally) (inputs : MeasureInputs α) : Prop where
  halstead : (s.halstead inputs.lexical).Fit
  functions : s.functions < countLimit
  lines : inputs.size.lines < countLimit
  identifiers : s.identifiers < countLimit
  nodes : s.nodes < countLimit
  characters : s.characters < countLimit

theorem CountsFit.distinctKeywords {s : Tally} {inputs : MeasureInputs α}
    (h : s.CountsFit inputs) : inputs.lexical.distinctKeywords < countLimit := by
  have hvocabulary := h.halstead.1
  simp only [HalsteadCounts.vocabulary, Tally.halstead] at hvocabulary
  omega

/-- The numbers that must not be zero, in the order in which they are needed, each with the reason
that is given when it is zero. -/
def needed (s : Tally) (inputs : MeasureInputs α) : List (Nat × Degeneracy) :=
  [(s.operands.length, (s.halstead inputs.lexical).noOperands),
    (s.functions, .zero .functions),
    (inputs.size.lines, .zero .lines),
    (s.identifiers, .zero .identifiers),
    (s.characters, .zero .keywordCharacters),
    (inputs.lexical.distinctKeywords, .logarithm .keywordCharacters)]

theorem reason_of_mem_needed {s : Tally} {inputs : MeasureInputs α} {r : Nat × Degeneracy}
    (h : r ∈ s.needed inputs) :
    r.2 ≠ .zero .nodes ∧ r.2 ≠ .zero .identifierCharacters ∧
      r.2 ≠ .logarithm .identifierCharacters := by
  have hnone (c : HalsteadCounts) : c.noOperands ≠ .zero .nodes ∧
      c.noOperands ≠ .zero .identifierCharacters ∧
        c.noOperands ≠ .logarithm .identifierCharacters := by
    unfold HalsteadCounts.noOperands
    split <;> decide
  simp only [needed, List.mem_cons, List.not_mem_nil, or_false] at h
  rcases h with rfl | rfl | rfl | rfl | rfl | rfl
  · exact hnone _
  all_goals exact ⟨nofun, nofun, nofun⟩

/-- The numbers that the formulas look at, one after the other. -/
def checked (s : Tally) (inputs : MeasureInputs α) : List (Nat × Degeneracy) :=
  [(s.operands.length, (s.halstead inputs.lexical).noOperands),
    (s.functions, .zero .functions), (s.functions, .zero .functions),
    (inputs.size.lines, .zero .lines), (s.identifiers, .zero .identifiers),
    (inputs.size.lines, .zero .lines), (inputs.size.lines, .zero .lines),
    (inputs.size.lines, .zero .lines), (s.nodes, .zero .nodes), (s.functions, .zero .functions),
    (s.characters, .zero .keywordCharacters),
    (inputs.lexical.distinctKeywords, .logarithm .keywordCharacters),
    (s.characters, .zero .identifierCharacters),
    (s.identifiers, .logarithm .identifierCharacters)]

theorem needs_checked [Scalar α] (laws : Scalar.CountLaws α) {s : Tally} {inputs : MeasureInputs α}
    (h : s.CountsFit inputs) : Needs (s.measure inputs) (s.checked inputs) := by
  have hcounts := halsteadCounts_of_fit h.halstead
  unfold measure checked
  rw [hcounts]
  refine h.halstead.needs_measure.bind fun _ _ => ?_
  refine (Needs.quotient laws _ h.functions _).bind fun _ _ => ?_
  refine (Needs.quotient laws _ h.functions _).bind fun _ _ => ?_
  refine (Needs.quotient laws _ h.lines _).bind fun _ _ => ?_
  refine (Needs.quotient laws _ h.identifiers _).bind fun _ _ => ?_
  refine (Needs.quotient laws _ h.lines _).bind fun _ _ => ?_
  refine (Needs.quotient laws _ h.lines _).bind fun _ _ => ?_
  refine (Needs.quotient laws _ h.lines _).bind fun _ _ => ?_
  refine (Needs.quotient laws _ h.nodes _).bind fun _ _ => ?_
  refine (Needs.quotient laws _ h.functions _).bind fun _ _ => ?_
  refine (Needs.lnQuotient laws h.distinctKeywords h.characters _).bind fun _ _ => ?_
  refine (Needs.lnQuotient laws h.identifiers h.characters _).bind fun _ _ => ?_
  exact .ok _

/-- An identifier was met, so a node with something below it was. -/
def HasNode (s : Tally) : Prop := s.identifiers = 0 ∨ 0 < s.nodes

/-- Most numbers are looked at again after they are known not to be zero, and a tally with an
identifier has a node. -/
theorem find?_checked {s : Tally} (hnode : s.HasNode) (inputs : MeasureInputs α) :
    (s.checked inputs).find? (·.1 = 0) = (s.needed inputs).find? (·.1 = 0) := by
  simp only [checked, needed, List.find?_cons, List.find?_nil]
  by_cases hoperands : s.operands.length = 0
  · simp [hoperands]
  by_cases hfunctions : s.functions = 0
  · simp [hoperands, hfunctions]
  by_cases hlines : inputs.size.lines = 0
  · simp [hoperands, hfunctions, hlines]
  by_cases hidentifiers : s.identifiers = 0
  · simp [hoperands, hfunctions, hlines, hidentifiers]
  have hnodes : s.nodes ≠ 0 := by
    rw [HasNode] at hnode
    omega
  by_cases hcharacters : s.characters = 0
  · simp [hoperands, hfunctions, hlines, hidentifiers, hnodes, hcharacters]
  simp [hoperands, hfunctions, hlines, hidentifiers, hnodes, hcharacters]

/-- What stops the measures is the first number that is zero. -/
theorem measure_eq_error_iff [Scalar α] (laws : Scalar.CountLaws α) {s : Tally}
    {inputs : MeasureInputs α} (h : s.CountsFit inputs) (hnode : s.HasNode) (e : MeasureError) :
    s.measure inputs = .error e ↔
      ∃ r, (s.needed inputs).find? (·.1 = 0) = some r ∧ e = .degenerate r.2 := by
  have hneeds := needs_checked laws h
  rw [Needs, find?_checked hnode] at hneeds
  cases hfind : (s.needed inputs).find? (·.1 = 0) with
  | some r =>
    rw [hfind] at hneeds
    rw [hneeds]
    simp [eq_comm]
  | none =>
    rw [hfind] at hneeds
    obtain ⟨values, hvalues⟩ := hneeds
    rw [hvalues]
    simp

/-! ## Tallies of walks -/

theorem HasNode.enter {s : Tally} (h : s.HasNode) (t : Tree) (depth : Nat) :
    (s.enter t depth).HasNode := by
  have hidentifiers : (s.enter t depth).identifiers = s.identifiers + t.tokens.countP isName := by
    rw [enter_eq]
    rfl
  have hnodes : (s.enter t depth).nodes = if t.children.isEmpty then s.nodes else s.nodes + 1 := by
    rw [enter_eq]
    rfl
  unfold HasNode at h ⊢
  rw [hidentifiers, hnodes]
  cases hchildren : t.children with
  | nil =>
    have htokens : t.tokens = [] := by rw [Tree.tokens, hchildren]; rfl
    rw [htokens]
    exact h
  | cons c cs => exact .inr (Nat.succ_pos _)

theorem HasNode.leave {s : Tally} (h : s.HasNode) (t : Tree) (depth : Nat) :
    (s.leave t depth).HasNode := by
  rw [leave_eq]
  exact h

theorem HasNode.follow {s : Tally} (h : s.HasNode) (es : List Tree.Event) :
    (s.follow es).HasNode := by
  induction es generalizing s with
  | nil => exact h
  | cons e es ih =>
    cases e with
    | enter t depth => exact ih (h.enter t depth)
    | leave t depth => exact ih (h.leave t depth)

/-- The tally of several trees, one walk after the other. -/
def ofTrees (trees : List Tree) : Tally := trees.foldl (Tree.walk listener) {}

theorem hasNode_ofTrees (trees : List Tree) : (ofTrees trees).HasNode := by
  have hwalks : ∀ (s : Tally), s.HasNode → (trees.foldl (Tree.walk listener) s).HasNode := by
    induction trees with
    | nil => exact fun _ h => h
    | cons t trees ih =>
      intro s h
      refine ih _ ?_
      rw [Tree.walk, Tree.run_eq_foldl]
      exact h.follow _
  exact hwalks {} (.inl rfl)

/-! ## Records of walks -/

/-- The measures that exist make a record, which is complete when they are all finite. -/
theorem exists_record {s : Tally} {inputs : MeasureInputs Float}
    (h : ∀ e, s.measure inputs = .error e → ∃ why, e = .degenerate why) (id : Text) :
    ∃ r, s.record id inputs = .ok r ∧
      (r.completed = true ↔ ∃ values, s.measure inputs = .ok values ∧
        ∀ x ∈ values.toList, x.isFinite = true) := by
  unfold record
  cases hmeasure : s.measure inputs with
  | ok values => exact ⟨_, rfl, by simp [Record.completed_ofMeasures]⟩
  | error e =>
    obtain ⟨why, rfl⟩ := h e hmeasure
    exact ⟨_, rfl, by simp [Record.incomplete]⟩

/-- After any walks, the measures fail just when one of the numbers that they need is zero. The
reason is that of the first one, and never that there is no node or no identifier in a character.
The record is complete just when there are measures and all of them are finite. -/
theorem measure_of_walks (trees : List Tree) (inputs : MeasureInputs Float) (id : Text)
    (h : (ofTrees trees).CountsFit inputs) :
    ((ofTrees trees).needed inputs).map (·.2.message) =
      [if ((ofTrees trees).halstead inputs.lexical).distinctOperators = 0 then
          "Halstead vocabulary is empty"
        else "no distinct Halstead operands",
        "function count is zero", "line count is zero", "identifier count is zero",
        "distinct keywords per character is zero",
        "logarithm of non-positive distinct keywords per character"] ∧
    ((∃ e, (ofTrees trees).measure inputs = .error e) ↔
      ∃ r ∈ (ofTrees trees).needed inputs, r.1 = 0) ∧
    (∀ e, (ofTrees trees).measure inputs = .error e ↔
      ∃ earlier r later, (ofTrees trees).needed inputs = earlier ++ r :: later ∧
        (∀ q ∈ earlier, q.1 ≠ 0) ∧ r.1 = 0 ∧ e = .degenerate r.2) ∧
    (∀ why, (ofTrees trees).measure inputs = .error (.degenerate why) →
      why ≠ .zero .nodes ∧ why ≠ .zero .identifierCharacters ∧
        why ≠ .logarithm .identifierCharacters) ∧
    ∃ r, (ofTrees trees).record id inputs = .ok r ∧
      (r.completed = true ↔ ∃ values, (ofTrees trees).measure inputs = .ok values ∧
        ∀ x ∈ values.toList, x.isFinite = true) := by
  have herror := measure_eq_error_iff Scalar.countLaws_float h (hasNode_ofTrees trees)
  refine ⟨?_, ?_, ?_, ?_, exists_record (fun e he => ?_) id⟩
  · unfold needed HalsteadCounts.noOperands
    split <;> rfl
  · constructor
    · rintro ⟨e, he⟩
      obtain ⟨r, hr, -⟩ := (herror e).1 he
      exact ⟨r, List.mem_of_find?_eq_some hr, by simpa using List.find?_some hr⟩
    · rintro ⟨r, hr, hzero⟩
      have hsome : ((ofTrees trees).needed inputs).find? (·.1 = 0) |>.isSome :=
        List.find?_isSome.2 ⟨r, hr, by simpa using hzero⟩
      obtain ⟨first, hfirst⟩ := Option.isSome_iff_exists.1 hsome
      exact ⟨_, (herror _).2 ⟨first, hfirst, rfl⟩⟩
  · intro e
    rw [herror e]
    constructor
    · rintro ⟨r, hr, he⟩
      obtain ⟨earlier, later, hnumbers, hearlier, hzero⟩ := find?_zero_eq_some_iff.1 hr
      exact ⟨earlier, r, later, hnumbers, hearlier, hzero, he⟩
    · rintro ⟨earlier, r, later, hnumbers, hearlier, hzero, he⟩
      exact ⟨r, find?_zero_eq_some_iff.2 ⟨earlier, later, hnumbers, hearlier, hzero⟩, he⟩
  · intro why hwhy
    obtain ⟨r, hr, he⟩ := (herror _).1 hwhy
    cases he
    exact reason_of_mem_needed (List.mem_of_find?_eq_some hr)
  · obtain ⟨r, -, hr⟩ := (herror e).1 he
    exact ⟨r.2, hr⟩

/-- Two files, the last of which is empty. -/
def twoFiles : List Tree :=
  [.plain .TranslationUnit
      [.plain .FunctionDefinition [.plain .Identifier [.token ⟨.identifier, ['f'], .zero⟩]]],
    .plain .TranslationUnit []]

def oneKeyword : MeasureInputs Float where
  size := ⟨1, 1⟩
  lexical := ⟨2, 1, 1, 1, 0, 0⟩
  readability := .standard

/-- The characters of a file are told anew by the next one. -/
theorem measure_of_walks_emptyLast :
    (ofTrees twoFiles).CountsFit oneKeyword ∧
      (ofTrees twoFiles).measure oneKeyword =
        .error (.degenerate (.zero .keywordCharacters)) := by
  have htally : ofTrees twoFiles =
      { nodes := 3, children := 3, maxTreeDepth := 3, functions := 1, identifiers := 1,
        identifierCharacters := 1, longestIdentifier := 1, identifierOccurrences := [(['f'], 1)],
        maxBlockDepth := 1, operands := [(['f'], 1)] } := by cbv
  have hfits : (ofTrees twoFiles).CountsFit oneKeyword := by
    rw [htally]
    exact ⟨⟨by decide, by decide⟩, by decide, by decide, by decide, by decide, by decide⟩
  obtain ⟨-, -, herror, -⟩ := measure_of_walks twoFiles oneKeyword [] hfits
  have hneeded : (ofTrees twoFiles).needed oneKeyword =
      [(1, .noOperands), (1, .zero .functions), (1, .zero .lines), (1, .zero .identifiers)] ++
        (0, .zero .keywordCharacters) :: [(1, .logarithm .keywordCharacters)] := by
    rw [htally]
    rfl
  exact ⟨hfits, (herror _).2 ⟨_, _, _, hneeded, by decide, rfl, rfl⟩⟩

end Tally

end Stylometry

import SlotJit.ClassData.Descriptor
import SlotJit.Proofs.Fallible

/-!
# The grammar of descriptors

Reading accepts exactly the texts that writing produces. A text that is refused is not in the
grammar, and the error tells where that shows: either the text ends too early, so that something is
missing at its end, or there is a first character with which no descriptor goes on.

`Reads` says of one part of the reader which texts it takes off the front of what it is given, and
how it stops: when the text ends, it could go on to a text of the part, and at a bad character it
stops whatever comes later. The parts are put together in this form, so nothing is said twice about
failures.

## Main results

* `parseField_reads`, `parseParams_reads`, `parseResult_reads`: the parts of the reader.
* `parse_decides_grammar`: which texts are descriptors, and which error each other text has.
-/

namespace SlotJit

/-- The class names in a type do not contain the character that ends them. -/
def FieldType.WellNamed : FieldType → Prop
  | object className => ';' ∉ className.toList
  | array element => element.WellNamed
  | _ => True

namespace Descriptor

variable {text rest : List Char} {ch : Char} {ty : FieldType} {tys : List FieldType}
  {d : Descriptor}

/-- The class names in a descriptor do not contain the character that ends them. -/
structure WellNamed (d : Descriptor) : Prop where
  params : ∀ ty ∈ d.params, ty.WellNamed
  result : ∀ ty ∈ d.result, ty.WellNamed

/-- Some descriptor starts with the text. -/
def Viable (text : List Char) : Prop := ∃ d : Descriptor, d.WellNamed ∧ text <+: d.render

/-- A text is good up to a character, and no descriptor goes on with it. -/
def FirstBad (text : List Char) (ch : Char) : Prop :=
  ∃ before rest, text = before ++ ch :: rest ∧ Viable before ∧ ¬ Viable (before ++ [ch])

/-! ### Readers -/

/-- A reader takes the texts of a part of the grammar off the front. Where the text ends it could
have gone on to such a text, and a bad character is one at which it stops whatever follows. -/
structure Reads {α : Type} (read : List Char → Except Obstacle (α × List Char))
    (Spells : α → List Char → Prop) : Prop where
  spelled : ∀ {a text}, Spells a text → ∀ rest, read (text ++ rest) = .ok (a, rest)
  ok : ∀ {text a rest}, read text = .ok (a, rest) → ∃ taken, Spells a taken ∧ text = taken ++ rest
  endOfText : ∀ {text}, read text = .error .endOfText → ∃ a more, Spells a (text ++ more)
  badChar : ∀ {text ch}, read text = .error (.badChar ch) → ∃ before rest,
    text = before ++ ch :: rest ∧ read before = .error .endOfText ∧
      ∀ more, read (before ++ ch :: more) = .error (.badChar ch)

/-! ### One type -/

/-- The text of a type. -/
def SpellsField (ty : FieldType) (text : List Char) : Prop := ty.WellNamed ∧ text = ty.render

/-- A type that is written out is read back, whatever follows. -/
theorem parseField_render (h : ty.WellNamed) (rest : List Char) :
    parseField (ty.render ++ rest) = .ok (ty, rest) := by
  induction ty with
  | object className =>
      have hname : ∀ c ∈ className.toList, decide (c ≠ ';') = true := fun c hc =>
        decide_eq_true fun heq => h (heq ▸ hc)
      have hdrop : (className.toList ++ ';' :: rest).dropWhile (· ≠ ';') = ';' :: rest := by
        rw [List.dropWhile_append_of_pos hname, List.dropWhile_cons_of_neg (by simp)]
      have htake : (className.toList ++ ';' :: rest).takeWhile (· ≠ ';') = className.toList := by
        rw [List.takeWhile_append_of_pos hname, List.takeWhile_cons_of_neg (by simp),
          List.append_nil]
      rw [FieldType.render, List.cons_append, List.append_assoc, List.singleton_append, parseField,
        if_neg (by decide), if_pos rfl, hdrop, htake, String.ofList_toList]
  | array element ih =>
      rw [FieldType.render, List.cons_append, parseField, if_pos rfl, ih h]
  | _ => rfl

/-- The letters of the primitive types. -/
theorem render_of_primitive? (h : FieldType.primitive? ch = some ty) : SpellsField ty [ch] := by
  unfold FieldType.primitive? at h
  split at h <;> cases h <;> exact ⟨trivial, rfl⟩

/-- A class name and what follows it. -/
theorem split_at_semicolon {head : Char} (h : text.dropWhile (· ≠ ';') = head :: rest) :
    ';' ∉ text.takeWhile (· ≠ ';') ∧ text = text.takeWhile (· ≠ ';') ++ ';' :: rest := by
  have hhead : head = ';' := by
    have hnot := List.head?_dropWhile_not (fun c => decide (c ≠ ';')) text
    rw [h] at hnot
    simpa using hnot
  refine ⟨fun hmem => by simpa using List.mem_takeWhile_imp hmem, ?_⟩
  conv_lhs =>
    rw [← List.takeWhile_append_dropWhile (p := fun c => decide (c ≠ ';')) (l := text), h, hhead]

/-- A type that was read is spelled by the text taken. -/
theorem spellsField_of_parseField (h : parseField text = .ok (ty, rest)) :
    ∃ taken, SpellsField ty taken ∧ text = taken ++ rest := by
  fun_induction parseField text generalizing ty rest with
  | case1 => cases h
  | case2 rest' element rest'' helement ih =>
      cases h
      obtain ⟨taken, ⟨hnamed, rfl⟩, rfl⟩ := ih helement
      exact ⟨_, ⟨hnamed, rfl⟩, rfl⟩
  | case3 => cases h
  | case4 rest' head rest'' hdrop =>
      cases h
      obtain ⟨hname, hsplit⟩ := split_at_semicolon hdrop
      refine ⟨'L' :: (rest'.takeWhile (· ≠ ';') ++ [';']), ⟨?_, ?_⟩, ?_⟩
      · rwa [FieldType.WellNamed, String.toList_ofList]
      · rw [FieldType.render, String.toList_ofList]
      · rw [List.cons_append, List.append_assoc, List.singleton_append, ← hsplit]
  | case5 => cases h
  | case6 ch rest' hopen hclass ty' hprimitive =>
      cases h
      exact ⟨[ch], render_of_primitive? hprimitive, rfl⟩
  | case7 => cases h

/-- Text that ends too early is the start of a type. -/
theorem parseField_endOfText (h : parseField text = .error .endOfText) :
    ∃ ty more, SpellsField ty (text ++ more) := by
  fun_induction parseField text with
  | case1 => exact ⟨.int, ['I'], trivial, rfl⟩
  | case2 | case4 | case6 | case7 => cases h
  | case3 rest obstacle helement ih =>
      cases h
      obtain ⟨ty, more, hnamed, htext⟩ := ih helement
      exact ⟨.array ty, more, hnamed, congrArg ('[' :: ·) htext⟩
  | case5 rest hdrop =>
      have hname : ';' ∉ rest :=
        fun hmem => by simpa using List.dropWhile_eq_nil_iff.mp hdrop ';' hmem
      exact ⟨.object (String.ofList rest), [';'],
        by rwa [FieldType.WellNamed, String.toList_ofList],
        by rw [FieldType.render, String.toList_ofList, List.cons_append]⟩

/-- A bad character is the first that no type goes on with. -/
theorem parseField_badChar (h : parseField text = .error (.badChar ch)) :
    ∃ before rest, text = before ++ ch :: rest ∧ parseField before = .error .endOfText ∧
      ∀ more, parseField (before ++ ch :: more) = .error (.badChar ch) := by
  fun_induction parseField text with
  | case1 | case2 | case4 | case5 | case6 => cases h
  | case3 rest obstacle helement ih =>
      cases h
      obtain ⟨before, rest', rfl, hbefore, hmore⟩ := ih helement
      refine ⟨'[' :: before, rest', rfl, ?_, fun more => ?_⟩
      · rw [parseField, if_pos rfl, hbefore]
      · rw [List.cons_append, parseField, if_pos rfl, hmore]
  | case7 bad rest hopen hclass hprimitive =>
      cases h
      refine ⟨[], rest, rfl, rfl, fun more => ?_⟩
      rw [List.nil_append, parseField, if_neg hopen, if_neg hclass, hprimitive]

/-- Reading one type. -/
theorem parseField_reads : Reads parseField SpellsField where
  spelled := by
    rintro ty _ ⟨hnamed, rfl⟩ rest
    exact parseField_render hnamed rest
  ok := spellsField_of_parseField
  endOfText := parseField_endOfText
  badChar := parseField_badChar

/-! ### Parameters -/

/-- The text of parameter types up to the closing parenthesis. -/
def SpellsParams (tys : List FieldType) (text : List Char) : Prop :=
  (∀ ty ∈ tys, ty.WellNamed) ∧ text = tys.flatMap FieldType.render ++ [')']

/-- Neither an end of the text nor a closing parenthesis starts a type. -/
theorem exists_of_parseField (h : parseField text = .ok (ty, rest)) :
    ∃ ch tail, text = ch :: tail ∧ ch ≠ ')' := by
  cases text with
  | nil => cases h
  | cons ch tail =>
      refine ⟨ch, tail, rfl, ?_⟩
      rintro rfl
      cases h

/-- Reading a type and then the others. -/
theorem parseParams_of_ok (h : parseField text = .ok (ty, rest)) :
    parseParams text = (parseParams rest).map (Prod.map (ty :: ·) id) := by
  obtain ⟨ch, tail, rfl, hch⟩ := exists_of_parseField h
  rw [parseParams, if_neg hch]
  split
  · rename_i heq
    cases h.symm.trans heq
    cases parseParams rest <;> rfl
  · rename_i heq
    cases h.symm.trans heq

/-- A type that cannot be read, unless there are no more types. -/
theorem parseParams_of_error {obstacle : Obstacle} (h : parseField text = .error obstacle)
    (hopen : text.head? ≠ some ')') : parseParams text = .error obstacle := by
  cases text with
  | nil =>
      rw [parseField] at h
      cases h
      rw [parseParams]
  | cons ch tail =>
      rw [parseParams, if_neg fun heq => hopen (congrArg some heq)]
      split
      · rename_i heq
        cases h.symm.trans heq
      · rename_i heq
        cases h.symm.trans heq
        rfl

/-- Parameters that are written out are read back. -/
theorem parseParams_render (h : ∀ ty ∈ tys, ty.WellNamed) (rest : List Char) :
    parseParams (tys.flatMap FieldType.render ++ [')'] ++ rest) = .ok (tys, rest) := by
  induction tys with
  | nil => rw [List.flatMap_nil, List.nil_append, List.singleton_append, parseParams, if_pos rfl]
  | cons ty tys ih =>
      have hfirst := parseField_render (h ty List.mem_cons_self)
        (tys.flatMap FieldType.render ++ [')'] ++ rest)
      rw [List.flatMap_cons, List.append_assoc, List.append_assoc,
        ← List.append_assoc (tys.flatMap _),
        parseParams_of_ok hfirst, ih fun ty hty => h ty (List.mem_cons_of_mem _ hty)]
      rfl

/-- One parameter more. -/
theorem spellsParams_cons {first : List Char} (hfirst : SpellsField ty first)
    (htext : SpellsParams tys text) : SpellsParams (ty :: tys) (first ++ text) := by
  obtain ⟨hnamed, rfl⟩ := hfirst
  obtain ⟨hall, rfl⟩ := htext
  exact ⟨List.forall_mem_cons.mpr ⟨hnamed, hall⟩, by rw [List.flatMap_cons, List.append_assoc]⟩

/-- Parameters that were read are spelled by the text taken. -/
theorem spellsParams_of_parseParams (h : parseParams text = .ok (tys, rest)) :
    ∃ taken, SpellsParams tys taken ∧ text = taken ++ rest := by
  fun_induction parseParams text generalizing tys rest with
  | case1 | case4 | case5 => cases h
  | case2 rest' =>
      cases h
      exact ⟨[')'], ⟨List.forall_mem_nil _, rfl⟩, rfl⟩
  | case3 ch tail hch ty rest' hfirst tys' rest'' hrest ih =>
      cases h
      obtain ⟨first, hspelled, htext⟩ := parseField_reads.ok hfirst
      obtain ⟨taken, hparams, rfl⟩ := ih hrest
      exact ⟨first ++ taken, spellsParams_cons hspelled hparams, by rw [htext, List.append_assoc]⟩

/-- Parameters that end too early can be completed. -/
theorem parseParams_endOfText (h : parseParams text = .error .endOfText) :
    ∃ tys more, SpellsParams tys (text ++ more) := by
  fun_induction parseParams text with
  | case1 => exact ⟨[], [')'], List.forall_mem_nil _, rfl⟩
  | case2 | case3 => cases h
  | case4 ch tail hch ty rest hfirst obstacle hrest ih =>
      cases h
      obtain ⟨first, hspelled, htext⟩ := parseField_reads.ok hfirst
      obtain ⟨tys, more, hparams⟩ := ih hrest
      refine ⟨ty :: tys, more, ?_⟩
      rw [htext, List.append_assoc]
      exact spellsParams_cons hspelled hparams
  | case5 ch tail hch obstacle hfirst =>
      cases h
      obtain ⟨ty, more, hspelled⟩ := parseField_reads.endOfText hfirst
      refine ⟨[ty], more ++ [')'], ?_⟩
      rw [← List.append_assoc]
      exact spellsParams_cons hspelled ⟨List.forall_mem_nil _, rfl⟩

/-- What is at the front does not depend on what comes later. -/
theorem head?_ne_of_append {before : List Char} {c : Char}
    (h : (before ++ ch :: rest).head? ≠ some c) :
    before.head? ≠ some c ∧ ∀ more, (before ++ ch :: more).head? ≠ some c := by
  cases before with
  | nil => exact ⟨by simp, fun _ => h⟩
  | cons first before => exact ⟨h, fun _ => h⟩

/-- A bad character among parameters is the first. -/
theorem parseParams_badChar {bad : Char} (h : parseParams text = .error (.badChar bad)) :
    ∃ before rest, text = before ++ bad :: rest ∧ parseParams before = .error .endOfText ∧
      ∀ more, parseParams (before ++ bad :: more) = .error (.badChar bad) := by
  fun_induction parseParams text with
  | case1 | case2 | case3 => cases h
  | case4 ch tail hch ty rest hfirst obstacle hrest ih =>
      cases h
      obtain ⟨first, hspelled, htext⟩ := parseField_reads.ok hfirst
      obtain ⟨before, rest', rfl, hbefore, hmore⟩ := ih hrest
      refine ⟨first ++ before, rest', by rw [htext, List.append_assoc], ?_, fun more => ?_⟩
      · rw [parseParams_of_ok (parseField_reads.spelled hspelled before), hbefore]
        rfl
      · rw [List.append_assoc, parseParams_of_ok (parseField_reads.spelled hspelled _), hmore]
        rfl
  | case5 ch tail hch obstacle hfirst =>
      cases h
      obtain ⟨before, rest, htext, hbefore, hmore⟩ := parseField_reads.badChar hfirst
      have hfront : (before ++ bad :: rest).head? ≠ some ')' := by
        rw [← htext]
        simpa using hch
      obtain ⟨hopen, hopen'⟩ := head?_ne_of_append hfront
      exact ⟨before, rest, htext, parseParams_of_error hbefore hopen, fun more =>
        parseParams_of_error (hmore more) (hopen' more)⟩

/-- Reading parameter types. -/
theorem parseParams_reads : Reads parseParams SpellsParams where
  spelled := by
    rintro tys _ ⟨hnamed, rfl⟩ rest
    exact parseParams_render hnamed rest
  ok := spellsParams_of_parseParams
  endOfText := parseParams_endOfText
  badChar := parseParams_badChar

/-! ### The result -/

/-- The text of a result type. -/
def SpellsResult (result : Option FieldType) (text : List Char) : Prop :=
  result = none ∧ text = ['V'] ∨ ∃ ty, result = some ty ∧ SpellsField ty text

/-- A result that is a type. -/
theorem parseResult_eq (h : text.head? ≠ some 'V') :
    parseResult text = (parseField text).map (Prod.map some id) := by
  unfold parseResult
  split
  · exact absurd rfl h
  · split
    · rename_i heq
      rw [heq]
      rfl
    · rename_i heq
      rw [heq]
      rfl

/-- A result that is not void fails as a type does. -/
theorem error_of_parseResult {obstacle : Obstacle} (hvoid : text.head? ≠ some 'V')
    (h : parseResult text = .error obstacle) : parseField text = .error obstacle := by
  rw [parseResult_eq hvoid] at h
  cases hfield : parseField text with
  | error =>
      rw [hfield] at h
      cases h
      rfl
  | ok =>
      rw [hfield] at h
      cases h

/-- No type starts as void does. -/
theorem head?_ne_of_parseField (h : parseField text = .ok (ty, rest)) : text.head? ≠ some 'V' := by
  cases text with
  | nil => simp
  | cons ch tail =>
      intro heq
      cases heq
      cases h

/-- Reading a result type. -/
theorem parseResult_reads : Reads parseResult SpellsResult where
  spelled := by
    rintro result text (⟨rfl, rfl⟩ | ⟨ty, rfl, hspelled⟩) rest
    · rfl
    · have hfield := parseField_reads.spelled hspelled rest
      rw [parseResult_eq (head?_ne_of_parseField hfield), hfield]
      rfl
  ok := by
    intro text result rest h
    by_cases hvoid : text.head? = some 'V'
    · obtain ⟨tail, rfl⟩ := List.head?_eq_some_iff.mp hvoid
      cases h
      exact ⟨['V'], .inl ⟨rfl, rfl⟩, rfl⟩
    · rw [parseResult_eq hvoid] at h
      cases hfield : parseField text with
      | error obstacle =>
          rw [hfield] at h
          cases h
      | ok read =>
          rw [hfield] at h
          cases h
          obtain ⟨taken, hspelled, htext⟩ := parseField_reads.ok hfield
          exact ⟨taken, .inr ⟨_, rfl, hspelled⟩, htext⟩
  endOfText := by
    intro text h
    by_cases hvoid : text.head? = some 'V'
    · obtain ⟨tail, rfl⟩ := List.head?_eq_some_iff.mp hvoid
      cases h
    · obtain ⟨ty, more, hspelled⟩ := parseField_reads.endOfText (error_of_parseResult hvoid h)
      exact ⟨some ty, more, .inr ⟨ty, rfl, hspelled⟩⟩
  badChar := by
    intro text ch h
    by_cases hvoid : text.head? = some 'V'
    · obtain ⟨tail, rfl⟩ := List.head?_eq_some_iff.mp hvoid
      cases h
    · obtain ⟨before, rest, rfl, hbefore, hmore⟩ :=
        parseField_reads.badChar (error_of_parseResult hvoid h)
      obtain ⟨hbefore', hmore'⟩ := head?_ne_of_append hvoid
      refine ⟨before, rest, rfl, ?_, fun more => ?_⟩
      · rw [parseResult_eq hbefore', hbefore]
        rfl
      · rw [parseResult_eq (hmore' more), hmore]
        rfl

/-! ### Whole descriptors -/

/-- The text of a descriptor after the opening parenthesis. -/
def SpellsBody (d : Descriptor) (text : List Char) : Prop :=
  ∃ params result, SpellsParams d.params params ∧ SpellsResult d.result result ∧
    text = params ++ result

/-- The text of a descriptor is made of the texts of its parts. -/
theorem spellsBody_iff : SpellsBody d text ↔ d.WellNamed ∧ '(' :: text = d.render := by
  obtain ⟨tys, result⟩ := d
  constructor
  · rintro ⟨_, _, ⟨hparams, rfl⟩, ⟨rfl, rfl⟩ | ⟨ty, rfl, hresult, rfl⟩, rfl⟩
    · exact ⟨⟨hparams, by simp⟩, by simp [render]⟩
    · exact ⟨⟨hparams, by simpa using hresult⟩, by simp [render]⟩
  · rintro ⟨hnamed, htext⟩
    cases result with
    | none => exact ⟨_, ['V'], ⟨hnamed.params, rfl⟩, .inl ⟨rfl, rfl⟩, by simpa [render] using htext⟩
    | some ty =>
        have hresult : SpellsResult (some ty) ty.render := .inr ⟨ty, rfl, hnamed.result ty rfl, rfl⟩
        exact ⟨_, ty.render, ⟨hnamed.params, rfl⟩, hresult, by simpa [render] using htext⟩

/-- What is spelled is read. -/
theorem parseBody_of_spells (h : SpellsBody d text) : parseBody text = .ok d := by
  obtain ⟨params, result, hparams, hresult, rfl⟩ := h
  have hresult' := parseResult_reads.spelled hresult []
  rw [List.append_nil] at hresult'
  simp [parseBody, parseParams_reads.spelled hparams, hresult', bind, Except.bind]

/-- Nothing can follow a descriptor. -/
theorem parseBody_trailing (h : SpellsBody d text) (ch : Char) (more : List Char) :
    parseBody (text ++ ch :: more) = .error (.badChar ch) := by
  obtain ⟨params, result, hparams, hresult, rfl⟩ := h
  simp [parseBody, parseParams_reads.spelled hparams, parseResult_reads.spelled hresult, bind,
    Except.bind]

/-- What was read is spelled. -/
theorem spellsBody_of_parseBody (h : parseBody text = .ok d) : SpellsBody d text := by
  obtain ⟨⟨tys, rest⟩, hparams, hread⟩ := bind_eq_ok.mp h
  obtain ⟨⟨result, rest'⟩, hresult, hend⟩ := bind_eq_ok.mp hread
  obtain ⟨params, hspelled, rfl⟩ := parseParams_reads.ok hparams
  obtain ⟨taken, hspelled', rfl⟩ := parseResult_reads.ok hresult
  cases rest' with
  | nil =>
      cases hend
      exact ⟨params, taken, hspelled, hspelled', by rw [List.append_nil]⟩
  | cons => cases hend

/-- A text that ends too early goes on to a descriptor. -/
theorem parseBody_endOfText (h : parseBody text = .error .endOfText) :
    ∃ d more, SpellsBody d (text ++ more) := by
  rcases bind_eq_error.mp h with hparams | ⟨⟨tys, rest⟩, hparams, hread⟩
  · obtain ⟨tys, more, hspelled⟩ := parseParams_reads.endOfText hparams
    refine ⟨⟨tys, none⟩, more ++ ['V'], _, ['V'], hspelled, .inl ⟨rfl, rfl⟩, ?_⟩
    rw [List.append_assoc]
  obtain ⟨params, hspelled, rfl⟩ := parseParams_reads.ok hparams
  rcases bind_eq_error.mp hread with hresult | ⟨⟨result, rest'⟩, hresult, hend⟩
  · obtain ⟨result, more, hspelled'⟩ := parseResult_reads.endOfText hresult
    exact ⟨⟨tys, result⟩, more, params, rest ++ more, hspelled, hspelled',
      by rw [List.append_assoc]⟩
  · cases rest' <;> cases hend

/-- A bad character comes after the beginning of a descriptor, and nothing later mends it. -/
theorem parseBody_badChar (h : parseBody text = .error (.badChar ch)) :
    ∃ before rest, text = before ++ ch :: rest ∧ (∃ d more, SpellsBody d (before ++ more)) ∧
      ∀ more, parseBody (before ++ ch :: more) = .error (.badChar ch) := by
  rcases bind_eq_error.mp h with hparams | ⟨⟨tys, rest⟩, hparams, hread⟩
  · obtain ⟨before, rest, rfl, hbefore, hmore⟩ := parseParams_reads.badChar hparams
    refine ⟨before, rest, rfl, parseBody_endOfText ?_, fun more => ?_⟩
    · simp [parseBody, hbefore, bind, Except.bind]
    · simp [parseBody, hmore, bind, Except.bind]
  obtain ⟨params, hspelled, rfl⟩ := parseParams_reads.ok hparams
  rcases bind_eq_error.mp hread with hresult | ⟨⟨result, rest'⟩, hresult, hend⟩
  · obtain ⟨before, rest', rfl, hbefore, hmore⟩ := parseResult_reads.badChar hresult
    refine ⟨params ++ before, rest', by rw [List.append_assoc], parseBody_endOfText ?_,
      fun more => ?_⟩
    · simp [parseBody, parseParams_reads.spelled hspelled, hbefore, bind, Except.bind]
    · simp [parseBody, parseParams_reads.spelled hspelled, hmore, bind, Except.bind]
  · obtain ⟨taken, hspelled', rfl⟩ := parseResult_reads.ok hresult
    have hbody : SpellsBody ⟨tys, result⟩ (params ++ taken) :=
      ⟨params, taken, hspelled, hspelled', rfl⟩
    cases rest' with
    | nil => cases hend
    | cons bad rest =>
        cases hend
        exact ⟨params ++ taken, rest, by rw [List.append_assoc],
          ⟨⟨tys, result⟩, [], by rwa [List.append_nil]⟩, parseBody_trailing hbody ch⟩

/-! ### Verdicts -/

/-- A text is viable behind its parenthesis if it can be completed. -/
theorem viable_iff : Viable ('(' :: text) ↔ ∃ d more, SpellsBody d (text ++ more) := by
  simp only [spellsBody_iff, Viable]
  constructor
  · rintro ⟨d, hnamed, more, hmore⟩
    exact ⟨d, more, hnamed, hmore⟩
  · rintro ⟨d, more, hnamed, hmore⟩
    exact ⟨d, hnamed, more, hmore⟩

/-- The start of a viable text is viable. -/
theorem Viable.of_append {more : List Char} (h : Viable (text ++ more)) : Viable text := by
  obtain ⟨d, hnamed, hprefix⟩ := h
  exact ⟨d, hnamed, (List.prefix_append text more).trans hprefix⟩

/-- A text with a bad character starts no descriptor. -/
theorem FirstBad.not_viable (h : FirstBad text ch) : ¬ Viable text := by
  obtain ⟨before, rest, rfl, -, hbad⟩ := h
  intro hviable
  rw [List.append_cons] at hviable
  exact hbad hviable.of_append

/-- Only one character is the first bad one. -/
theorem FirstBad.unique {ch' : Char} (h : FirstBad text ch) (h' : FirstBad text ch') :
    ch = ch' := by
  obtain ⟨before, rest, rfl, hgood, hbad⟩ := h
  obtain ⟨before', rest', heq, hgood', hbad'⟩ := h'
  rcases List.append_eq_append_iff.mp heq with ⟨between, hbefore, hrest⟩ | ⟨between, hbefore, hrest⟩
  · cases between with
    | nil =>
        cases hrest
        rfl
    | cons first between =>
        cases hrest
        rw [hbefore, List.append_cons] at hgood'
        exact absurd hgood'.of_append hbad
  · cases between with
    | nil =>
        cases hrest
        rfl
    | cons first between =>
        cases hrest
        rw [hbefore, List.append_cons] at hgood
        exact absurd hgood.of_append hbad'

/-- What the grammar says of a text. -/
inductive Verdict (text : String) : Except DescriptorError Descriptor → Prop
  | ok {d : Descriptor} (named : d.WellNamed) (spelled : text.toList = d.render) :
      Verdict text (.ok d)
  | missingParams
      (other : text.toList.head? ≠ some '(') : Verdict text (.error (.missingParams text))
  | unterminated {d : Descriptor} (opened : text.toList.head? = some '(') (named : d.WellNamed)
      (early : text.toList <+: d.render) (proper : text.toList ≠ d.render) :
      Verdict text (.error (.unterminated text))
  | unexpectedChar {ch : Char}
      (opened : text.toList.head? = some '(') (bad : FirstBad text.toList ch) :
      Verdict text (.error (.unexpectedChar text ch))

/-- Parsing reaches the verdict of the grammar. -/
theorem verdict_parse (text : String) : Verdict text (parse text) := by
  unfold parse
  split
  · rename_i body hopen
    have hopened : text.toList.head? = some '(' := by rw [hopen]; rfl
    split
    · rename_i d hbody
      obtain ⟨hnamed, htext⟩ := spellsBody_iff.mp (spellsBody_of_parseBody hbody)
      exact .ok hnamed (hopen.trans htext)
    · rename_i hbody
      obtain ⟨d, more, hspelled⟩ := parseBody_endOfText hbody
      obtain ⟨hnamed, htext⟩ := spellsBody_iff.mp hspelled
      refine .unterminated hopened hnamed ⟨more, by rw [hopen, ← htext, List.cons_append]⟩
        fun heq => ?_
      rw [hopen] at heq
      cases hbody.symm.trans (parseBody_of_spells (spellsBody_iff.mpr ⟨hnamed, heq⟩))
    · rename_i ch hbody
      obtain ⟨before, rest, rfl, hbefore, hmore⟩ := parseBody_badChar hbody
      refine .unexpectedChar hopened
        ⟨'(' :: before, rest, hopen, viable_iff.mpr hbefore, fun hviable => ?_⟩
      rw [List.cons_append] at hviable
      obtain ⟨d, more, hspelled⟩ := viable_iff.mp hviable
      rw [List.append_assoc, List.singleton_append] at hspelled
      cases (hmore more).symm.trans (parseBody_of_spells hspelled)
  · rename_i hopen
    refine .missingParams fun heq => ?_
    obtain ⟨body, hbody⟩ := List.head?_eq_some_iff.mp heq
    exact hopen body hbody

/-- No descriptor goes on where another one ends. -/
theorem render_prefixFree {d' : Descriptor} (hd : d.WellNamed) (hd' : d'.WellNamed)
    (h : d.render <+: d'.render) : d = d' := by
  obtain ⟨body, hbody⟩ : ∃ body, d.render = '(' :: body := ⟨_, rfl⟩
  obtain ⟨more, hmore⟩ := h
  have hspelled : SpellsBody d body := spellsBody_iff.mpr ⟨hd, hbody.symm⟩
  have hspelled' : SpellsBody d' (body ++ more) :=
    spellsBody_iff.mpr ⟨hd', by rw [← hmore, hbody, List.cons_append]⟩
  have hparse := parseBody_of_spells hspelled'
  cases more with
  | nil =>
      rw [List.append_nil, parseBody_of_spells hspelled] at hparse
      exact Except.ok.inj hparse
  | cons ch more =>
      rw [parseBody_trailing hspelled] at hparse
      cases hparse

/-- The grammar says one thing of each text. -/
theorem Verdict.unique {text : String} {r r' : Except DescriptorError Descriptor}
    (h : Verdict text r) (h' : Verdict text r') : r = r' := by
  -- A text that is a descriptor does not end too early, and neither of the two has a bad character.
  have hwhole : ∀ {d d' : Descriptor}, d.WellNamed → text.toList = d.render → d'.WellNamed →
      text.toList <+: d'.render → text.toList = d'.render := fun named spelled named' early =>
    spelled.trans (congrArg render (render_prefixFree named named' (spelled ▸ early)))
  have hgood : ∀ {d : Descriptor} {ch : Char}, d.WellNamed → text.toList <+: d.render →
      ¬ FirstBad text.toList ch := fun named early bad => bad.not_viable ⟨_, named, early⟩
  have hopened : ∀ {d : Descriptor}, text.toList = d.render → text.toList.head? = some '(' :=
    fun spelled => by rw [spelled]; rfl
  cases h with
  | ok named spelled =>
      cases h' with
      | ok named' spelled' => rw [render_prefixFree named named' (by rw [← spelled, ← spelled'])]
      | missingParams other => exact absurd (hopened spelled) other
      | unterminated _ named' early proper =>
          exact absurd (hwhole named spelled named' early) proper
      | unexpectedChar _ bad => exact absurd bad (hgood named (by rw [spelled]))
  | missingParams other =>
      cases h' with
      | ok _ spelled => exact absurd (hopened spelled) other
      | missingParams => rfl
      | unterminated opened | unexpectedChar opened => exact absurd opened other
  | unterminated opened named early proper =>
      cases h' with
      | ok named' spelled => exact absurd (hwhole named' spelled named early) proper
      | missingParams other => exact absurd opened other
      | unterminated => rfl
      | unexpectedChar _ bad => exact absurd bad (hgood named early)
  | unexpectedChar opened bad =>
      cases h' with
      | ok named spelled => exact absurd bad (hgood named (by rw [spelled]))
      | missingParams other => exact absurd opened other
      | unterminated _ named early => exact absurd bad (hgood named early)
      | unexpectedChar _ bad' => rw [bad.unique bad']

/-- Parsing and the verdict agree. -/
theorem parse_eq_iff {text : String} {r : Except DescriptorError Descriptor} :
    parse text = r ↔ Verdict text r :=
  ⟨fun h => h ▸ verdict_parse text, fun h => (verdict_parse text).unique h⟩

/-- **Descriptors are read by their grammar.** A text is read as a descriptor if and only if it is
the text of that descriptor, so each descriptor has one text and each text one descriptor. Any other
text has no parameters if it does not start with a parenthesis, ends too early if something can be
added to make it a descriptor, and otherwise has a bad character: the first with which no descriptor
goes on. -/
theorem parse_decides_grammar (text : String) :
    (∀ d, parse text = .ok d ↔ d.WellNamed ∧ text.toList = d.render) ∧
      (∀ d : Descriptor, d.WellNamed → parse (String.ofList d.render) = .ok d) ∧
      (parse text = .error (.missingParams text) ↔ text.toList.head? ≠ some '(') ∧
      (parse text = .error (.unterminated text) ↔ text.toList.head? = some '(' ∧
        ∃ d : Descriptor, d.WellNamed ∧ text.toList <+: d.render ∧ text.toList ≠ d.render) ∧
      (∀ ch, parse text = .error (.unexpectedChar text ch) ↔
        text.toList.head? = some '(' ∧ FirstBad text.toList ch) ∧
      ((∃ ch, parse text = .error (.unexpectedChar text ch)) ↔
        text.toList.head? = some '(' ∧ ¬ Viable text.toList) ∧
      ∀ error, parse text = .error error → error = .missingParams text ∨
        error = .unterminated text ∨ ∃ ch, error = .unexpectedChar text ch := by
  simp only [parse_eq_iff]
  refine ⟨fun d => ?_, fun d hd => .ok hd String.toList_ofList, ?_, ?_, fun ch => ?_, ?_, ?_⟩
  · constructor
    · intro h
      cases h with
      | ok named spelled => exact ⟨named, spelled⟩
    · rintro ⟨hnamed, htext⟩
      exact .ok hnamed htext
  · refine ⟨fun h => ?_, .missingParams⟩
    cases h with
    | missingParams other => exact other
  · constructor
    · intro h
      cases h with
      | unterminated opened named early proper => exact ⟨opened, _, named, early, proper⟩
    · rintro ⟨hopened, d, hnamed, hearly, hproper⟩
      exact .unterminated hopened hnamed hearly hproper
  · constructor
    · intro h
      cases h with
      | unexpectedChar opened bad => exact ⟨opened, bad⟩
    · rintro ⟨hopened, hbad⟩
      exact .unexpectedChar hopened hbad
  · constructor
    · rintro ⟨ch, h⟩
      cases h with
      | unexpectedChar opened bad => exact ⟨opened, bad.not_viable⟩
    · -- Of the four verdicts only a bad character is left.
      rintro ⟨hopened, hviable⟩
      obtain ⟨r, h⟩ : ∃ r, Verdict text r := ⟨_, verdict_parse text⟩
      cases h with
      | ok named spelled => exact absurd ⟨_, named, by rw [spelled]⟩ hviable
      | missingParams other => exact absurd hopened other
      | unterminated _ named early => exact absurd ⟨_, named, early⟩ hviable
      | unexpectedChar _ bad => exact ⟨_, .unexpectedChar hopened bad⟩
  · intro error h
    cases h with
    | missingParams => exact .inl rfl
    | unterminated => exact .inr (.inl rfl)
    | unexpectedChar => exact .inr (.inr ⟨_, rfl⟩)

/-- An array of arrays of a class whose name looks like an array, and a result. -/
def nested : Descriptor := ⟨[.array (.array (.object "p/[I)")), .long], some (.array .boolean)⟩

/-- The names in `nested` are names. -/
theorem wellNamed_nested : nested.WellNamed := by
  refine ⟨fun ty hty => ?_, fun ty hty => ?_⟩
  · simp only [nested, List.mem_cons, List.not_mem_nil, or_false] at hty
    rcases hty with rfl | rfl
    · show ';' ∉ "p/[I)".toList
      decide
    · trivial
  · cases hty
    trivial

/-- The text of `nested`, and the text without its end. -/
theorem parse_decides_grammar_nested :
    parse "([[Lp/[I);J)[Z" = .ok nested ∧
      parse "([[Lp/[I);J)[" = .error (.unterminated "([[Lp/[I);J)[") := by
  obtain ⟨hok, -⟩ := parse_decides_grammar "([[Lp/[I);J)[Z"
  obtain ⟨-, -, -, hearly, -⟩ := parse_decides_grammar "([[Lp/[I);J)["
  refine ⟨(hok nested).mpr ⟨wellNamed_nested, by decide⟩,
    hearly.mpr ⟨by decide, nested, wellNamed_nested, ?_⟩⟩
  decide

end Descriptor

end SlotJit

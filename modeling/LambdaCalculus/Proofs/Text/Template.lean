import LambdaCalculus.Text.Template
import LambdaCalculus.Proofs.Text.Decoration
import Mathlib.Data.List.TakeWhile

/-!
# Plain templates

A template is plain if its fields only tell which texts are taken. Then the texts go into it as they
are, and it is filled with texts in colour as with the same texts without: either it fails in the
same way, or it comes to one styled text, which is sent out in colour or not (`fill_of_isPlain`).

Other templates look into the texts. One that fits a text into a field counts the control sequences
around it, and so makes another text with colour than without.
-/

namespace LambdaCalculus.Template

/-- Whether nothing but names stands in the fields of the rest of a template, which begins in a
field or outside of fields. -/
def isPlainFrom : Bool → List Char → Bool
  | _, [] => true
  | false, '\x7b' :: '\x7b' :: rest => isPlainFrom false rest
  | false, '\x7d' :: '\x7d' :: rest => isPlainFrom false rest
  | false, c :: rest => isPlainFrom (c = '\x7b') rest
  | true, c :: rest => c ∉ ['!', ':', '[', '.'] && isPlainFrom (c ≠ '\x7d') rest

/-- Whether the fields of a template only tell which texts are taken: there is no conversion, no
specification, no index and no attribute. -/
def IsPlain (template : String) : Prop := isPlainFrom false template.toList = true

/-- Whether a template is filled alike with and without colour: it fails in the same way, or it
comes to a text whose spans are sent out in colour or not. -/
def FillsAlike (fill : Bool → Except Stop (List Char × Numbering)) : Prop :=
  (∃ fault : Fault, Text.IsBare fault.message ∧ ∀ colour, fill colour = .error (.fault fault)) ∨
    ∃ (s : Styled) (numbering : Numbering),
      s.IsBare ∧ ∀ colour, fill colour = .ok ((s.render colour).toList, numbering)

theorem FillsAlike.fault {fill : Bool → Except Stop (List Char × Numbering)} {fault : Fault}
    (hfault : Text.IsBare fault.message) (h : ∀ colour, fill colour = .error (.fault fault)) :
    FillsAlike fill :=
  .inl ⟨fault, hfault, h⟩

theorem FillsAlike.putFront {fill behind : Bool → Except Stop (List Char × Numbering)} {s : Styled}
    (hs : s.IsBare) (hbehind : FillsAlike behind)
    (h : ∀ colour, fill colour = Template.putFront (s.render colour).toList (behind colour)) :
    FillsAlike fill := by
  rcases hbehind with ⟨fault, hfault, hstop⟩ | ⟨t, numbering, ht, hfilled⟩
  · refine .fault hfault fun colour => ?_
    rw [h, hstop]
    rfl
  · refine .inr ⟨s ++ t, numbering, Styled.isBare_append.mpr ⟨hs, ht⟩, fun colour => ?_⟩
    rw [h, hfilled, Styled.render_append, String.toList_append]
    rfl

/-- What a field is filled with stands in front of what comes behind it. -/
theorem FillsAlike.field {fill field : Bool → Except Stop (List Char × Numbering)}
    {behind : Numbering → Bool → Except Stop (List Char × Numbering)} (hfield : FillsAlike field)
    (hbehind : ∀ numbering, FillsAlike (behind numbering))
    (h : ∀ colour, fill colour =
      match field colour with
      | .error stop => .error stop
      | .ok (filled, numbering) => Template.putFront filled (behind numbering colour)) :
    FillsAlike fill := by
  rcases hfield with ⟨fault, hfault, hstop⟩ | ⟨s, numbering, hs, hfilled⟩
  · exact .fault hfault fun colour => by rw [h, hstop]
  · exact (hbehind numbering).putFront hs fun colour => by rw [h, hfilled]

theorem FillsAlike.putChar {fill behind : Bool → Except Stop (List Char × Numbering)} {c : Char}
    (hc : c ≠ '\x1b') (hbehind : FillsAlike behind)
    (h : ∀ colour, fill colour = Template.putFront [c] (behind colour)) : FillsAlike fill := by
  have hbare : Text.IsBare (String.ofList [c]) := Text.isBare_literal (by simpa using hc.symm)
  refine hbehind.putFront (Styled.isBare_plain.mpr hbare) fun colour => ?_
  rw [h, Styled.render_plain, String.toList_ofList]

/-! ### Fields -/

/-- A name has no part behind the text that it picks. -/
def IsName (cs : List Char) : Prop := '.' ∉ cs ∧ '[' ∉ cs

theorem IsName.reverse {cs : List Char} (h : IsName cs) : IsName cs.reverse := by
  simpa [IsName] using h

theorem behind_of_isName {name : List Char} (h : IsName name) :
    name.takeWhile (fun c => c ≠ '.' ∧ c ≠ '[') = name ∧
      name.dropWhile (fun c => c ≠ '.' ∧ c ≠ '[') = [] := by
  have hname : ∀ c ∈ name, decide (c ≠ '.' ∧ c ≠ '[') = true := by
    intro c hc
    have hdot : c ≠ '.' := ne_of_mem_of_not_mem hc h.1
    have hbracket : c ≠ '[' := ne_of_mem_of_not_mem hc h.2
    exact decide_eq_true ⟨hdot, hbracket⟩
  exact ⟨List.takeWhile_eq_self_iff.mpr hname, List.dropWhile_eq_nil_iff.mpr hname⟩

/-- A field that is a name takes the text that the name picks as it is. -/
theorem fill_of_isName {name : List Char} (h : IsName name) (values : List (List Char))
    (expand : Numbering → List Char → Except Stop (List Char × Numbering)) (numbering : Numbering) :
    (Field.mk name none []).fill values expand numbering =
      match pick numbering name with
      | .error stop => .error stop
      | .ok (index, numbering) =>
          match values[index]? with
          | none => .error (.fault (.missing index))
          | some value => .ok (value, numbering) := by
  obtain ⟨htake, hdrop⟩ := behind_of_isName h
  simp only [Field.fill, resolve, htake, hdrop]
  cases pick numbering name with
  | error stop => rfl
  | ok picked =>
      obtain ⟨index, numbering⟩ := picked
      dsimp only
      cases values[index]? with
      | none => rfl
      | some value => simp [access, convert, Text.format, Except.map]

theorem fault_of_number? {cs : List Char} {stop : Stop} (h : number? cs = .error stop) :
    ∃ fault, stop = .fault (.format fault) ∧ Text.FormatSpec.readCount cs = .error fault := by
  unfold number? at h
  split at h
  · rename_i fault hcount
    obtain rfl := Except.error.inj h
    exact ⟨fault, rfl, hcount⟩
  · contradiction

theorem fault_of_readCount {cs : List Char} {fault : Text.FormatSpec.Fault}
    (h : Text.FormatSpec.readCount cs = .error fault) : fault = .hugeNumber := by
  unfold Text.FormatSpec.readCount at h
  dsimp only at h
  split at h
  · contradiction
  · split at h
    · exact (Except.error.inj h).symm
    · contradiction

theorem fault_of_pick {numbering : Numbering} {name : List Char} {stop : Stop}
    (h : pick numbering name = .error stop) :
    ∃ fault : Fault, Text.IsBare fault.message ∧ stop = .fault fault := by
  unfold pick at h
  split at h
  · cases numbering with
    | numbered =>
        obtain rfl := Except.error.inj h
        exact ⟨.numberedThenCounted, Text.isBare_literal (by decide), rfl⟩
    | _ => contradiction
  · split at h
    · rename_i hnumber
      obtain rfl := Except.error.inj h
      obtain ⟨fault, rfl, hcount⟩ := fault_of_number? hnumber
      obtain rfl := fault_of_readCount hcount
      exact ⟨.format .hugeNumber, Text.isBare_literal (by decide), rfl⟩
    · obtain rfl := Except.error.inj h
      exact ⟨.unknownField _, Text.isBare_quoted _, rfl⟩
    · obtain rfl := Except.error.inj h
      exact ⟨.countedThenNumbered, Text.isBare_literal (by decide), rfl⟩
    · contradiction

/-! ### What a reader does with a character -/

section Reading

variable {values : List (List Char)}
  {expand : Numbering → List Char → Except Stop (List Char × Numbering)} {numbering : Numbering}
  {c : Char} {rest : List Char}

theorem fillFrom_opening (hc : c ≠ '\x7b') :
    fillFrom values expand numbering .text ('\x7b' :: c :: rest) =
      fillFrom values expand numbering (.name []) (c :: rest) := by
  rw [fillFrom]
  · exact List.cons_ne_nil c rest
  · intro rest h
    exact hc (List.cons.inj h).1

theorem fillFrom_closing (h : ∀ behind, rest ≠ '\x7d' :: behind) :
    fillFrom values expand numbering .text ('\x7d' :: rest) = .error (.fault .loneClosing) := by
  rw [fillFrom]
  exact h

theorem fillFrom_char (hopening : c ≠ '\x7b') (hclosing : c ≠ '\x7d') :
    fillFrom values expand numbering .text (c :: rest) =
      putFront [c] (fillFrom values expand numbering .text rest) := by
  rw [fillFrom]
  · rintro rfl
    contradiction
  · rintro rest rfl
    contradiction
  · rintro rfl
    contradiction
  · rintro rest rfl
    contradiction
  · rintro rfl
    contradiction

theorem fillFrom_name {reversed : List Char} :
    fillFrom values expand numbering (.name reversed) (c :: rest) =
      match (Place.name reversed).move c with
      | .stop fault => .error (.fault fault)
      | .goOn place => fillFrom values expand numbering place rest
      | .close field =>
          match field.fill values expand numbering with
          | .error stop => .error stop
          | .ok (filled, numbering) =>
              putFront filled (fillFrom values expand numbering .text rest) := by
  rw [fillFrom]
  all_goals first
    | rfl
    | intros; contradiction

end Reading

/-! ### Templates -/

section Filling

variable {texts : List Styled}
  {expand : Bool → Numbering → List Char → Except Stop (List Char × Numbering)}

/-- Texts as they are sent out. -/
def sentTexts (texts : List Styled) (colour : Bool) : List (List Char) :=
  texts.map fun text => (text.render colour).toList

theorem fillsAlike_field (htexts : ∀ text ∈ texts, text.IsBare) {name : List Char}
    (hname : IsName name) (numbering : Numbering) :
    FillsAlike fun colour =>
      (Field.mk name none []).fill (sentTexts texts colour) (expand colour) numbering := by
  simp only [fill_of_isName hname, sentTexts, List.getElem?_map]
  cases hpick : pick numbering name with
  | error stop =>
      obtain ⟨fault, hfault, rfl⟩ := fault_of_pick hpick
      exact .fault hfault fun _ => rfl
  | ok picked =>
      obtain ⟨index, numbering⟩ := picked
      cases htext : texts[index]? with
      | none =>
          have hfault : Text.IsBare (Fault.missing index).message :=
            Text.isBare_between (by decide) (Text.isBare_natRepr index) (by decide)
          exact .fault hfault fun colour => by simp only [htext, Option.map_none]
      | some text =>
          have hbare : text.IsBare := htexts text (List.mem_of_getElem? htext)
          exact .inr ⟨text, numbering, hbare, fun colour => by simp only [htext, Option.map_some]⟩

/-- A reader of a plain template stands outside of fields, or in one behind a part of its name. -/
def Place.IsPlain (inField : Bool) : Place → Prop
  | text => inField = false
  | name reversed => inField = true ∧ IsName reversed
  | _ => False

/-- What a reader in a name does with a character that belongs to a plain field. -/
theorem move_name {reversed : List Char} {c : Char} (hc : c ∉ ['!', ':', '[', '.']) :
    (Place.name reversed).move c =
      if c = '\x7b' then .stop .nestedOpening
      else if c = '\x7d' then .close ⟨reversed.reverse, none, []⟩
      else .goOn (.name (c :: reversed)) := by
  simp only [List.mem_cons, List.not_mem_nil, or_false, not_or] at hc
  obtain ⟨hmark, hcolon, hbracket, -⟩ := hc
  simp only [Place.move]
  split
  all_goals simp_all

theorem IsName.cons {reversed : List Char} {c : Char} (h : IsName reversed)
    (hc : c ∉ ['!', ':', '[', '.']) : IsName (c :: reversed) := by
  simp only [List.mem_cons, List.not_mem_nil, or_false, not_or] at hc
  obtain ⟨-, -, hbracket, hdot⟩ := hc
  exact ⟨List.not_mem_cons_of_ne_of_not_mem (Ne.symm hdot) h.1,
    List.not_mem_cons_of_ne_of_not_mem (Ne.symm hbracket) h.2⟩

/-- The rest of a template is filled alike from any place where a plain template has come to. -/
def RestFillsAlike (texts : List Styled)
    (expand : Bool → Numbering → List Char → Except Stop (List Char × Numbering)) (inField : Bool)
    (rest : List Char) : Prop :=
  ∀ (numbering : Numbering) (place : Place), place.IsPlain inField →
    FillsAlike fun colour =>
      fillFrom (sentTexts texts colour) (expand colour) numbering place rest

theorem fillsAlike_text {c : Char} {rest : List Char} (hbare : c ≠ '\x1b')
    (hopening : ∀ behind, c = '\x7b' → rest ≠ '\x7b' :: behind)
    (hclosing : ∀ behind, c = '\x7d' → rest ≠ '\x7d' :: behind)
    (hrest : RestFillsAlike texts expand (c = '\x7b') rest) :
    RestFillsAlike texts expand false (c :: rest) := by
  intro numbering place hplace
  cases place with
  | text =>
      by_cases hc : c = '\x7b'
      · subst hc
        cases rest with
        | nil =>
            have hfault : Text.IsBare Fault.loneOpening.message := Text.isBare_literal (by decide)
            exact .fault hfault fun _ => rfl
        | cons d rest =>
            have hd : d ≠ '\x7b' := fun h => hopening rest rfl (congrArg (· :: rest) h)
            simp only [fillFrom_opening hd]
            exact hrest numbering (.name []) ⟨rfl, by simp [IsName]⟩
      · by_cases hc' : c = '\x7d'
        · subst hc'
          have hfault : Text.IsBare Fault.loneClosing.message := Text.isBare_literal (by decide)
          exact .fault hfault fun _ => fillFrom_closing fun behind => hclosing behind rfl
        · have hbehind := hrest numbering .text (decide_eq_false hc)
          exact hbehind.putChar hbare fun _ => fillFrom_char hc hc'
  | name reversed => exact absurd hplace.1 Bool.false_ne_true
  | _ => exact hplace.elim

theorem fillsAlike_name (htexts : ∀ text ∈ texts, text.IsBare) {c : Char} {rest : List Char}
    (hc : c ∉ ['!', ':', '[', '.']) (hrest : RestFillsAlike texts expand (c ≠ '\x7d') rest) :
    RestFillsAlike texts expand true (c :: rest) := by
  intro numbering place hplace
  cases place with
  | text => exact absurd hplace Bool.true_eq_false_eq_False
  | name reversed =>
      obtain ⟨-, hname⟩ := hplace
      simp only [fillFrom_name, move_name hc]
      by_cases hopening : c = '\x7b'
      · have hfault : Text.IsBare Fault.nestedOpening.message := Text.isBare_literal (by decide)
        simp only [if_pos hopening]
        exact .fault hfault fun _ => rfl
      · simp only [if_neg hopening]
        by_cases hclosing : c = '\x7d'
        · simp only [if_pos hclosing]
          refine (fillsAlike_field htexts hname.reverse numbering).field (fun numbering => ?_)
            fun _ => rfl
          exact hrest numbering .text (by simp [Place.IsPlain, hclosing])
        · simp only [if_neg hclosing]
          exact hrest numbering _ ⟨decide_eq_true hclosing, hname.cons hc⟩
  | _ => exact hplace.elim

theorem fillsAlike_from (htexts : ∀ text ∈ texts, text.IsBare) {inField : Bool}
    {template : List Char} (hplain : isPlainFrom inField template = true)
    (hbare : '\x1b' ∉ template) : RestFillsAlike texts expand inField template := by
  have hrest {c : Char} {rest : List Char} (hmem : '\x1b' ∉ c :: rest) : '\x1b' ∉ rest :=
    mt (List.mem_cons_of_mem c) hmem
  fun_induction isPlainFrom inField template with
  | case1 inField =>
      intro numbering place hplace
      cases place with
      | text => exact .inr ⟨[], numbering, Styled.isBare_nil, fun _ => rfl⟩
      | name reversed =>
          have hfault : Text.IsBare Fault.unclosedField.message := Text.isBare_literal (by decide)
          exact .fault hfault fun _ => rfl
      | _ => exact hplace.elim
  | case2 rest ih =>
      intro numbering place hplace
      cases place with
      | text =>
          exact (ih hplain (hrest (hrest hbare)) numbering .text rfl).putChar (by decide)
            fun _ => rfl
      | name reversed => exact absurd hplace.1 Bool.false_ne_true
      | _ => exact hplace.elim
  | case3 rest ih =>
      intro numbering place hplace
      cases place with
      | text =>
          exact (ih hplain (hrest (hrest hbare)) numbering .text rfl).putChar (by decide)
            fun _ => rfl
      | name reversed => exact absurd hplace.1 Bool.false_ne_true
      | _ => exact hplace.elim
  | case4 c rest hopening hclosing ih =>
      exact fillsAlike_text (List.ne_of_not_mem_cons hbare).symm hopening hclosing
        (ih hplain (hrest hbare))
  | case5 c rest ih =>
      rw [Bool.and_eq_true, decide_eq_true_eq] at hplain
      exact fillsAlike_name htexts hplain.1 (ih hplain.2 (hrest hbare))

end Filling

/-- A plain template is filled alike with and without colour. -/
theorem fill_of_isPlain {template : String} (hplain : IsPlain template)
    (hbare : Text.IsBare template)
    {exprs : List Styled} (hexprs : ∀ expr ∈ exprs, expr.IsBare) :
    (∃ fault : Fault, Text.IsBare fault.message ∧
        ∀ colour, fill template (exprs.map (Styled.render colour)) = .error (.fault fault)) ∨
      ∃ s : Styled, s.IsBare ∧
        ∀ colour, fill template (exprs.map (Styled.render colour)) = .ok (s.render colour) := by
  have htexts (colour : Bool) :
      (exprs.map (Styled.render colour)).map String.toList = sentTexts exprs colour := by
    rw [List.map_map]
    rfl
  have hrest : RestFillsAlike exprs
      (fun colour numbering =>
        fillFrom (sentTexts exprs colour) (fun _ _ => .error (.fault .tooManyLevels))
          numbering .text)
      false template.toList :=
    fillsAlike_from hexprs hplain hbare
  have hfills := hrest .undecided .text rfl
  simp only [fill, htexts]
  rcases hfills with ⟨fault, hfault, hstop⟩ | ⟨s, numbering, hs, hfilled⟩
  · exact .inl ⟨fault, hfault, fun colour => congrArg (Except.map _) (hstop colour)⟩
  · refine .inr ⟨s, hs, fun colour => (congrArg (Except.map _) (hfilled colour)).trans ?_⟩
    exact congrArg Except.ok String.ofList_toList

end LambdaCalculus.Template

import LambdaCalculus.Datum.Written
import LambdaCalculus.Failure.Basic
import LambdaCalculus.Proofs.Parser.Faults
import LambdaCalculus.Proofs.Term.OneLine
import LambdaCalculus.Proofs.Text.Template

/-!
# Reports without escape characters

What is said in a report comes from its expressions and from fixed texts. So there is no escape
character in it if there is none in the expressions, and in the template if it is made from a plain
one. Terms stand in reports on one line, with their names quoted, and bring none with them; nor do
data in terms, whose texts are quoted too. A diagnosis shows nothing but the expression.
-/

namespace LambdaCalculus

variable {α : Type}

/-! ### Terms -/

/-- Whether the texts that stand for foreign values have no escape character in them. -/
def Foreign.IsBare (α : Type) [Foreign α] : Prop :=
  ∀ v : α, Text.IsBare (Foreign.inline v) ∧ Text.IsBare (Foreign.typeName v)

theorem Foreign.isBare_empty : Foreign.IsBare Empty := fun v => v.elim

/-- A term on one line has no escape character in it, whatever its names are. -/
theorem Tree.isBare_oneLine [Foreign α] (hforeign : Foreign.IsBare α) (t : Tree α) :
    Text.IsBare t.oneLine := by
  induction t with
  | var x => exact Text.isBare_between (by decide) (Text.isBare_quoted x) (by decide)
  | lam x b ih =>
      have hname : Text.IsBare ("Abstraction(name=" ++ Text.quoted x ++ ", body=") :=
        Text.isBare_between (by decide) (Text.isBare_quoted x) (by decide)
      have hend : Text.IsBare ")" := Text.isBare_literal (by decide)
      simp only [oneLine_lam, Text.isBare_append] at hname ⊢
      exact ⟨⟨hname, ih⟩, hend⟩
  | app f a ihf iha =>
      have hfunction : Text.IsBare ("Application(function=" ++ f.oneLine ++ ", argument=") :=
        Text.isBare_between (by decide) ihf (by decide)
      have hend : Text.IsBare ")" := Text.isBare_literal (by decide)
      simp only [oneLine_app, Text.isBare_append] at hfunction ⊢
      exact ⟨⟨hfunction, iha⟩, hend⟩
  | foreign v => exact (hforeign v).1

/-! ### Data -/

namespace Double

theorem isBare_writeDigits (digits : List Nat) : Text.IsBare (writeDigits digits) := by
  rw [writeDigits, Text.isBare_ofList]
  intro h
  obtain ⟨d, -, hd⟩ := List.mem_map.mp h
  by_cases hvalid : (0x30 + d).isValidChar
  · rw [Char.ofNat, dif_pos hvalid] at hd
    have hcode : 0x30 + d = 0x1B := congrArg Char.toNat hd
    omega
  · rw [Char.ofNat, dif_neg hvalid] at hd
    contradiction

theorem isBare_writePositional (d : Decimal) : Text.IsBare (writePositional d) := by
  have hpoint : Text.IsBare "." := Text.isBare_literal (by decide)
  simp [writePositional, isBare_writeDigits, hpoint]

theorem isBare_writeScientific (d : Decimal) : Text.IsBare (writeScientific d) := by
  have hempty : Text.IsBare "" := Text.isBare_literal (by decide)
  have hpoint : Text.IsBare "." := Text.isBare_literal (by decide)
  have hletter : Text.IsBare "e" := Text.isBare_literal (by decide)
  have hminus : Text.IsBare "-" := Text.isBare_literal (by decide)
  have hplus : Text.IsBare "+" := Text.isBare_literal (by decide)
  have hzero : Text.IsBare "0" := Text.isBare_literal (by decide)
  simp only [writeScientific, Text.isBare_append]
  have hpart (digits : List Nat) : Text.IsBare ("." ++ writeDigits digits) :=
    Text.isBare_append.mpr ⟨hpoint, isBare_writeDigits digits⟩
  exact ⟨⟨⟨⟨⟨isBare_writeDigits _, Text.isBare_ite hempty (hpart _)⟩, hletter⟩,
    Text.isBare_ite hminus hplus⟩,
    Text.isBare_ite hzero hempty⟩, isBare_writeDigits _⟩

theorem isBare_written (x : Double) : Text.IsBare x.written := by
  have hsign : Text.IsBare (if x.isNegative then "-" else "") :=
    Text.isBare_ite (Text.isBare_literal (by decide)) (Text.isBare_literal (by decide))
  unfold written
  simp only
  split
  · split
    · exact Text.isBare_append.mpr ⟨hsign, Text.isBare_literal (by decide)⟩
    · exact Text.isBare_literal (by decide)
  · split
    · exact Text.isBare_append.mpr ⟨hsign, Text.isBare_literal (by decide)⟩
    · exact Text.isBare_append.mpr
        ⟨hsign, Text.isBare_ite (isBare_writePositional _) (isBare_writeScientific _)⟩

end Double

namespace Datum

mutual

theorem isBare_inline : ∀ d : Datum, Text.IsBare d.inline
  | null => Text.isBare_literal (by decide)
  | bool true => Text.isBare_literal (by decide)
  | bool false => Text.isBare_literal (by decide)
  | int value => Text.isBare_intRepr value
  | double value => value.isBare_written
  | text value => Text.isBare_quoted value
  | list items =>
      Text.isBare_between (by decide)
        (Text.isBare_intercalate (Text.isBare_literal (by decide)) (isBare_inlineItems items))
        (by decide)
  | record fields =>
      Text.isBare_between (by decide)
        (Text.isBare_intercalate (Text.isBare_literal (by decide)) (isBare_inlineFields fields))
        (by decide)

theorem isBare_inlineItems : ∀ items : List Datum, ∀ s ∈ inlineItems items, Text.IsBare s
  | [] => by simp [inlineItems]
  | item :: rest => List.forall_mem_cons.mpr ⟨isBare_inline item, isBare_inlineItems rest⟩

theorem isBare_inlineFields :
    ∀ fields : List (String × Datum), ∀ s ∈ inlineFields fields, Text.IsBare s
  | [] => by simp [inlineFields]
  | (key, value) :: rest => by
      have hcolon : Text.IsBare ": " := Text.isBare_literal (by decide)
      have hfield : Text.IsBare (Text.quoted key ++ ": " ++ value.inline) := by
        simp [hcolon, isBare_inline value]
      exact List.forall_mem_cons.mpr ⟨hfield, isBare_inlineFields rest⟩

end

/-- Data bring no escape character into a text: texts are quoted in it. -/
theorem isBare_foreign : Foreign.IsBare Datum := by
  intro d
  refine ⟨isBare_inline d, ?_⟩
  cases d <;> exact Text.isBare_literal (by decide)

end Datum

/-! ### Reports -/

namespace Report

def IsBare (r : Report) : Prop := r.message.IsBare ∧ Text.IsBare r.expr

/-- A diagnosis shows pieces of the expression, and the characters that underline the span. -/
theorem isBare_diagnosis {r : Report} (h : Text.IsBare r.expr) (colour : Colour) :
    (r.diagnosis colour).IsBare := by
  have hcut {cs : List Char} (hsublist : cs.Sublist r.expr.toList) : '\x1b' ∉ cs :=
    mt hsublist.mem h
  have hrepeated {count : Int} {c : Char} (hc : '\x1b' ≠ c) : '\x1b' ∉ Text.repeated count c := by
    simp [Text.repeated, hc]
  have hfront : '\x1b' ∉ Text.sliceTo r.expr.toList r.start := hcut (List.take_sublist _ _)
  have hspan : '\x1b' ∉ Text.slice r.expr.toList r.start (max r.stop (r.start + 1)) :=
    hcut ((List.drop_sublist _ _).trans (List.take_sublist _ _))
  have hrest : '\x1b' ∉ Text.sliceFrom r.expr.toList (max r.stop (r.start + 1)) :=
    hcut (List.drop_sublist _ _)
  have hblanks : '\x1b' ∉ Text.repeated r.start ' ' := hrepeated (by decide)
  have htildes : '\x1b' ∉ Text.repeated (max r.stop (r.start + 1) - r.start - 1) '~' :=
    hrepeated (by decide)
  have hmargin : Text.IsBare "  " := Text.isBare_literal (by decide)
  have hend : Text.IsBare "\n" := Text.isBare_literal (by decide)
  have hcaret : Text.IsBare "^" := Text.isBare_literal (by decide)
  simp [diagnosis, hfront, hspan, hrest, hblanks, htildes, hmargin, hend, hcaret]

theorem isBare_saying {expr rest : String} (hexpr : Text.IsBare expr) (hrest : Text.IsBare rest) :
    (saying expr rest).IsBare := by
  have hquote : Text.IsBare "'" := Text.isBare_literal (by decide)
  simp [saying, hexpr, hrest, hquote]

theorem isBare_withinSteps {expr middle steps : String} (hexpr : Text.IsBare expr)
    (hmiddle : Text.IsBare middle)
    (hsteps : Text.IsBare steps) : (withinSteps expr middle steps).IsBare := by
  have hend : Text.IsBare " β-steps" := Text.isBare_literal (by decide)
  simp [withinSteps, isBare_saying hexpr hmiddle, hsteps, hend]

theorem isBare_malformed {source : String} (h : Text.IsBare source) {fault : Parser.Fault}
    (hfault : (Parser.parse source : Except Parser.Fault (Tree α)) = .error fault) :
    (malformed source fault).IsBare := by
  refine ⟨?_, h⟩
  obtain ⟨cause, start, stop⟩ := fault
  cases cause with
  | emptySource => exact Styled.isBare_plain.mpr (Text.isBare_literal (by decide))
  | strayCharacter c =>
      have hc : '\x1b' ≠ c := by
        rintro rfl
        have hname : Parser.isNameChar '\x1b' = false := Parser.not_isNameChar_of_parse hfault rfl
        contradiction
      have hchar : Text.IsBare c.toString := by simpa [Text.IsBare] using hc
      exact isBare_saying h (Text.isBare_between (by decide) hchar (by decide))
  | _ => exact isBare_saying h (Text.isBare_literal (by decide))

theorem isBare_stepLimit [Foreign α] (hforeign : Foreign.IsBare α) (t : Tree α) (limit : Int) :
    (stepLimit t limit).IsBare := by
  have hterm := t.isBare_oneLine hforeign
  exact ⟨isBare_withinSteps hterm (Text.isBare_literal (by decide)) (Text.isBare_intRepr limit),
    hterm⟩

theorem isBare_depthLimit [Foreign α] (hforeign : Foreign.IsBare α) (t : Tree α) (begun : Nat) :
    (depthLimit t begun).IsBare := by
  have hterm := t.isBare_oneLine hforeign
  exact ⟨isBare_withinSteps hterm (Text.isBare_literal (by decide)) (Text.isBare_natRepr begun),
    hterm⟩

theorem isBare_noNormalForm {source : String} (h : Text.IsBare source) (limit : Int) :
    (noNormalForm source limit).IsBare :=
  ⟨isBare_withinSteps h (Text.isBare_literal (by decide)) (Text.isBare_intRepr limit), h⟩

theorem isBare_about_nothing {cs : List Char} (h : '\x1b' ∉ cs) :
    (about "" (Styled.plain (String.ofList cs))).IsBare :=
  ⟨Styled.isBare_plain.mpr (Text.isBare_literal h), Text.isBare_literal (by decide)⟩

theorem isBare_interrupted : interrupted.IsBare := isBare_about_nothing (by decide)

theorem isBare_nestedTooDeep : nestedTooDeep.IsBare := isBare_about_nothing (by decide)

theorem isBare_unknown {label text : String} (hlabel : Text.IsBare label)
    (htext : Text.IsBare text) :
    (unknown label text).IsBare := by
  have hfront : Text.IsBare "unknown error: '" := Text.isBare_literal (by decide)
  have hcolon : Text.IsBare ": " := Text.isBare_literal (by decide)
  have hquote : Text.IsBare "'" := Text.isBare_literal (by decide)
  simp [unknown, IsBare, about, hlabel, htext, hfront, hcolon, hquote]

theorem isBare_cannotOpen {path : String} (h : Text.IsBare path) : (cannotOpen path).IsBare :=
  ⟨isBare_saying h (Text.isBare_literal (by decide)), h⟩

end Report

/-! ### Drafts -/

namespace Draft

def IsBare (draft : Draft) : Prop :=
  Text.IsBare draft.template ∧ ∀ expr ∈ draft.exprs, Text.IsBare expr

/-- Whether the fields of the template only tell which expressions are taken. -/
def IsPlain (draft : Draft) : Prop := Template.IsPlain draft.template

/-- From a plain template the same report is made with and without colour, but for the colour of its
message; or none is made, for the same reason. -/
theorem report_of_isPlain {draft : Draft} (hplain : draft.IsPlain) (h : draft.IsBare) :
    (∃ fault : Template.Fault, Text.IsBare fault.message ∧
        ∀ colour, draft.report colour = .error (.fault fault)) ∨
      ∃ r : Report, r.IsBare ∧ ∀ colour, draft.report colour = .ok (r.inColour colour) := by
  obtain ⟨htemplate, hexprs⟩ := h
  have hbold : ∀ expr ∈ draft.exprs.map Styled.bold, expr.IsBare := by
    intro text htext
    obtain ⟨expr, hexpr, rfl⟩ := List.mem_map.mp htext
    exact Styled.isBare_bold.mpr (hexprs expr hexpr)
  have hsent (colour : Bool) :
      draft.exprs.map (fun expr => (Styled.bold expr).render colour) =
        (draft.exprs.map Styled.bold).map (Styled.render colour) := by
    rw [List.map_map]
    rfl
  simp only [report, hsent]
  rcases Template.fill_of_isPlain hplain htemplate hbold with
    ⟨fault, hfault, hstop⟩ | ⟨s, hs, hfill⟩
  · exact .inl ⟨fault, hfault, fun colour => by rw [hstop]; rfl⟩
  · have hfirst : Text.IsBare (draft.exprs.head?.getD "") := by
      cases hhead : draft.exprs.head? with
      | none => exact Text.isBare_literal (by decide)
      | some expr => exact hexprs expr (List.mem_of_head? hhead)
    exact .inr ⟨{ draft with
      message := s
      expr := draft.exprs.head?.getD ""
      stop := if draft.stop = -1 then (draft.exprs.head?.getD "").length else draft.stop },
      ⟨hs, hfirst⟩, fun colour => by rw [hfill]; rfl⟩

end Draft

/-! ### Failures -/

/-- Whether the texts of a failure that come from outside have no escape character in them. -/
def Unforeseen.IsBare : Unforeseen → Prop
  | unmet _ typeName => Text.IsBare typeName
  | external label text => Text.IsBare label ∧ Text.IsBare text
  | unfillable fault => Text.IsBare fault.message
  | _ => True

namespace Unforeseen

theorem isBare_lengthMessage (digits : Option Nat) :
    Text.IsBare (Numeral.lengthMessage digits) := by
  have hlimit : Text.IsBare ("Exceeds the limit (" ++ toString Numeral.digitLimit
      ++ " digits) for integer string conversion") :=
    Text.isBare_between (by decide) (Text.isBare_natRepr _) (by decide)
  have hend : Text.IsBare "; use sys.set_int_max_str_digits() to increase the limit" :=
    Text.isBare_literal (by decide)
  have hmessage {count : String} (hcount : Text.IsBare count) :
      Text.IsBare
        ("Exceeds the limit (" ++ toString Numeral.digitLimit ++
          " digits) for integer string conversion"
        ++ count ++ "; use sys.set_int_max_str_digits() to increase the limit") :=
    Text.isBare_append.mpr ⟨Text.isBare_append.mpr ⟨hlimit, hcount⟩, hend⟩
  cases digits with
  | none => exact hmessage (Text.isBare_literal (by decide))
  | some n => exact hmessage (Text.isBare_between (by decide) (Text.isBare_natRepr n) (by decide))

theorem isBare_malformedMessage (text : String) : Text.IsBare (Numeral.malformedMessage text) := by
  have hfront : Text.IsBare "invalid literal for int() with base 10: " :=
    Text.isBare_literal (by decide)
  have hquoted : '\x1b' ∉ (Text.quoted text).toList.take 200 :=
    mt List.mem_of_mem_take (Text.isBare_quoted text)
  exact Text.isBare_append.mpr ⟨hfront, Text.isBare_ofList.mpr hquoted⟩

theorem isBare_undecodableMessage (fault : Utf8.Fault) : Text.IsBare fault.message := by
  have hfront : Text.IsBare "'utf-8' codec can't decode " := Text.isBare_literal (by decide)
  have hcolon : Text.IsBare ": " := Text.isBare_literal (by decide)
  have hreason : Text.IsBare fault.reason.message := by
    cases fault.reason with
    | _ => exact Text.isBare_literal (by decide)
  have hdigits : '\x1b' ∉ Text.hexDigits 2 fault.byte.toNat :=
    Text.escape_not_mem fun _ => Text.isUnprintable_of_mem_hexDigits
  have hbyte : Text.IsBare
      ("byte 0x" ++ String.ofList (Text.hexDigits 2 fault.byte.toNat) ++ " in position ") :=
    Text.isBare_between (by decide) (Text.isBare_ofList.mpr hdigits) (by decide)
  have hbytes : Text.IsBare ("bytes in position " ++ toString fault.start ++ "-") :=
    Text.isBare_between (by decide) (Text.isBare_natRepr _) (by decide)
  have hspan : Text.IsBare (if fault.start = fault.last then
      "byte 0x" ++ String.ofList (Text.hexDigits 2 fault.byte.toNat) ++ " in position " ++
        toString fault.start
    else "bytes in position " ++ toString fault.start ++ "-" ++ toString fault.last) :=
    Text.isBare_ite (Text.isBare_append.mpr ⟨hbyte, Text.isBare_natRepr _⟩)
      (Text.isBare_append.mpr ⟨hbytes, Text.isBare_natRepr _⟩)
  exact Text.isBare_append.mpr
    ⟨Text.isBare_append.mpr ⟨Text.isBare_append.mpr ⟨hfront, hspan⟩, hcolon⟩, hreason⟩

theorem isBare_label {failure : Unforeseen} (h : failure.IsBare) : Text.IsBare failure.label := by
  cases failure with
  | unmet demand typeName => cases demand <;> exact Text.isBare_literal (by decide)
  | extent fault => cases fault <;> exact Text.isBare_literal (by decide)
  | unfillable fault =>
      cases fault with
      | format fault => cases fault <;> exact Text.isBare_literal (by decide)
      | _ => exact Text.isBare_literal (by decide)
  | external label text => exact h.1
  | _ => exact Text.isBare_literal (by decide)

theorem isBare_text {failure : Unforeseen} (h : failure.IsBare) : Text.IsBare failure.text := by
  cases failure with
  | unmet demand typeName =>
      have hlacking {what : String} (hwhat : Text.IsBare what) :
          Text.IsBare (lacking typeName what) :=
        Text.isBare_append.mpr
          ⟨Text.isBare_append.mpr ⟨Text.isBare_between (by decide) h (by decide), hwhat⟩,
          Text.isBare_literal (by decide)⟩
      cases demand with
      | term => exact Text.isBare_between (by decide) h (by decide)
      | _ => exact hlacking (Text.isBare_literal (by decide))
  | noNumber text fault =>
      cases fault with
      | malformed => exact isBare_malformedMessage text
      | tooLong digits => exact isBare_lengthMessage (some digits)
  | longNumber fault =>
      cases fault with
      | unread digits => exact isBare_lengthMessage (some digits)
      | unwritten => exact isBare_lengthMessage none
  | extent fault => cases fault <;> exact Text.isBare_literal (by decide)
  | unfillable fault => exact h
  | undecodable fault => exact isBare_undecodableMessage fault
  | nullInPath => exact Text.isBare_literal (by decide)
  | noPath => exact Text.isBare_literal (by decide)
  | external label text => exact h.2

theorem isBare_report {failure : Unforeseen} (h : failure.IsBare) : failure.report.IsBare :=
  Report.isBare_unknown (isBare_label h) (isBare_text h)

end Unforeseen

end LambdaCalculus

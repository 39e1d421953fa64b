/-!
# Styled text

What the program prints is a list of spans, each plain or bold, a bold one possibly in a colour.
Spans are put together and compared as they are; only `render` knows the control sequences of a
terminal, and it is called last. Without colour it gives the bare text, so a decision on colour can
change nothing but the sequences themselves.
-/

namespace LambdaCalculus

/-- The colours in use: red for errors, magenta for warnings, cyan for steps. -/
inductive Colour where
  | red | magenta | cyan
deriving DecidableEq

inductive Style where
  | plain
  | bold (colour : Option Colour)
deriving DecidableEq

structure Span where
  style : Style
  text : String
deriving DecidableEq

abbrev Styled := List Span

def Colour.code : Colour → String
  | .red => "31"
  | .magenta => "35"
  | .cyan => "36"

def controlSequence (code : String) : String := "\x1b[" ++ code ++ "m"

def Style.opening : Style → String
  | .plain => ""
  | .bold none => controlSequence "1"
  | .bold (some colour) => controlSequence "1" ++ controlSequence colour.code

def Style.closing : Style → String
  | .plain => ""
  | .bold _ => controlSequence "0"

namespace Styled

def plain (text : String) : Styled := [⟨.plain, text⟩]

def bold (text : String) : Styled := [⟨.bold none, text⟩]

def coloured (colour : Colour) (text : String) : Styled := [⟨.bold (some colour), text⟩]

/-- The text as it is sent out, with or without control sequences. An empty span in a style has its
sequences too. -/
def render (colour : Bool) (spans : Styled) : String :=
  String.join (spans.map fun span =>
    if colour then span.style.opening ++ span.text ++ span.style.closing else span.text)

def line (text : Styled) : Styled := text ++ plain "\n"

/-- The text that is sent out, with or without colour, as a plain one. -/
def sent (colour : Bool) (s : Styled) : Styled := plain (s.render colour)

/-! ### Rendering -/

@[simp] theorem render_nil (colour : Bool) : render colour [] = "" := rfl

@[simp] theorem render_append (colour : Bool) (s t : Styled) :
    render colour (s ++ t) = render colour s ++ render colour t := by
  simp [render]

@[simp] theorem render_plain (colour : Bool) (text : String) :
    render colour (plain text) = text := by
  cases colour <;> simp [render, plain, Style.opening, Style.closing]

@[simp] theorem render_line (colour : Bool) (s : Styled) :
    render colour (line s) = render colour s ++ "\n" := by
  simp [line]

@[simp] theorem render_bold (text : String) : render false (bold text) = text := by
  simp [render, bold]

@[simp] theorem render_coloured (colour : Colour) (text : String) :
    render false (coloured colour text) = text := by
  simp [render, coloured]

end Styled

end LambdaCalculus

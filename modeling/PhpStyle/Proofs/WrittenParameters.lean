import PhpStyle.Proofs.WrittenTypes

/-!
# Parameters as they are written

Attributes, modifiers and whole parameters by their parts, each with its text, and the lexemes that the
lexer reads there. Read from the left, the lexemes of a parameter tell its type and its marks
one by one up to its variable (`Heads`); behind that stands its default, if there is one.
-/

namespace PhpStyle.Written

open Text Lexer

/-- An argument of an attribute, perhaps with a label. -/
structure Argument where
  label : Option Identifier
  value : Value

def Identifier.toName (w : Identifier) : Name :=
  ⟨false, w, []⟩

theorem Identifier.text_toName (w : Identifier) : w.toName.text = w.text := by
  simp [toName, Name.text, Name.tail]

def Argument.text (a : Argument) : List Char :=
  (match a.label with
    | none => []
    | some w => w.text ++ [':', ' ']) ++ a.value.text

theorem Argument.exists_phrase (a : Argument) : ∃ ls, Phrase a.text ls := by
  obtain ⟨label, value⟩ := a
  obtain ⟨ls, hls⟩ := value.exists_phrase
  cases label with
  | none => exact ⟨ls, hls.toPhrase⟩
  | some w =>
    have htext : text ⟨some w, value⟩ = w.toName.text ++ (':' :: ' ' :: value.text) := by
      rw [text, w.text_toName, List.append_assoc]
      rfl
    refine ⟨(w.toName.kind, w.toName.text) :: (.colon, [':']) :: (.blank, [' ']) :: ls, ?_, ?_, ?_, ?_, ?_⟩
    · rw [htext]
      simp [hls.spelled_eq]
    · rw [htext]
      exact w.toName.inked_text.append _
    · rw [htext]
      refine .append (.of_not_mem (w.toName.not_mem_text (by decide) (by decide))) ?_
      exact .of_head (by decide) (by decide)
    · exact w.toName.closed_cons (.cons rfl nofun (.cons rfl nofun hls.closed))
    · intro last z hlast hz
      refine .cons (w.toName.writes hlast.facts.2 (.of_mark (by decide) _)) ?_
      refine .cons (writes_sign (by decide) (by decide) _) ?_
      refine .cons (writes_blank ?_) (hls.writes (some .colon) z (by simp [StartsValue]) hz)
      rw [hls.spelled_eq]
      exact hls.inked.append z

structure Attribute where
  name : Name
  arguments : Option (List Argument)

namespace Attribute

def argumentsText : Option (List Argument) → List Char
  | none => []
  | some as => '(' :: (commas (as.map Argument.text) ++ [')'])

def text (a : Attribute) : List Char :=
  '#' :: '[' :: (a.name.text ++ (argumentsText a.arguments ++ [']']))

theorem exists_inner (a : Attribute) : ∃ ls, Closed (ls.map (·.1)) ∧
    spelled ((.openAttribute, ['#', '[']) :: (ls ++ [(.closeAttribute, [']'])])) = a.text ∧
    ∀ last z, Writes last ((.openAttribute, ['#', '[']) :: (ls ++ [(.closeAttribute, [']'])])) z := by
  have harguments : ∃ ls, spelled ls = argumentsText a.arguments ∧ Closed (ls.map (·.1)) ∧
      (∀ z, Follows (spelled ls ++ ']' :: z)) ∧ ∀ last z, Writes last ls z := by
    cases a.arguments with
    | none => exact ⟨[], rfl, .nil, fun z => .of_mark (by decide) z, fun last z => .nil last z⟩
    | some as =>
      have hlist : ∀ t ∈ as.map Argument.text, ∃ ls, Phrase t ls := by
        intro t ht
        obtain ⟨b, -, rfl⟩ := List.mem_map.1 ht
        exact b.exists_phrase
      obtain ⟨ls, hls⟩ := exists_listed hlist
      obtain ⟨ms, hspelled, hclosed, hwrites⟩ := exists_parens hls
      refine ⟨ms, hspelled, hclosed, fun z => ?_, hwrites⟩
      rw [hspelled]
      exact .of_mark (by decide) _
  obtain ⟨ls, hspelled, hclosed, hfollows, hwrites⟩ := harguments
  refine ⟨(a.name.kind, a.name.text) :: ls, ?_, ?_, fun last z => ?_⟩
  · exact a.name.closed_cons hclosed
  · simp [text, spelled_append, hspelled]
  · exact writes_attribute (.cons (a.name.writes rfl (hfollows z)) (hwrites _ _))

end Attribute

/-- What the lexemes before and with a parameter's variable tell, one after the other. -/
inductive Heads : Tokens.ParameterHead → List (Kind × List Char) → Tokens.ParameterHead → Prop
  | named (head : Tokens.ParameterHead) (u : List Char) : Heads head [(.variableName, u)] head
  | blank {head head' : Tokens.ParameterHead} {u : List Char} {ls : List (Kind × List Char)}
      (h : Heads head ls head') : Heads head ((.blank, u) :: ls) head'
  | enclosed {head head' : Tokens.ParameterHead} {u v : List Char} {inner ls : List (Kind × List Char)}
      (hinner : Closed (inner.map (·.1))) (h : Heads head ls head') :
      Heads head ((.openAttribute, u) :: (inner ++ (.closeAttribute, v) :: ls)) head'
  | modifier {head head' : Tokens.ParameterHead} {l : Kind × List Char} {ls : List (Kind × List Char)}
      (hl : Tokens.promotes l.1 = true) (h : Heads { head with promoted := true } ls head') :
      Heads head (l :: ls) head'
  | ellipsis {head head' : Tokens.ParameterHead} {u : List Char} {ls : List (Kind × List Char)}
      (h : Heads { head with variadic := true } ls head') : Heads head ((.ellipsis, u) :: ls) head'
  | part {head head' : Tokens.ParameterHead} {l : Kind × List Char} {ls : List (Kind × List Char)}
      (hl : l.1 ∈ typeParts) (h : Heads { head with type := head.type ++ String.ofList l.2 } ls head') :
      Heads head (l :: ls) head'
  | both {head head' : Tokens.ParameterHead} {l m : Kind × List Char} {ls : List (Kind × List Char)}
      (hl : l.1 = .bitwiseAnd) (hm : m.1 ∈ typeNames)
      (h : Heads { head with type := head.type ++ String.ofList l.2 } (m :: ls) head') :
      Heads head (l :: m :: ls) head'
  | reference {head head' : Tokens.ParameterHead} {u : List Char} {m : Kind × List Char}
      {gap ls : List (Kind × List Char)} (hgap : gap = [] ∨ gap = [(.blank, [' '])])
      (hm : m.1 = .variableName ∨ m.1 = .ellipsis)
      (h : Heads { head with byReference := true } (gap ++ m :: ls) head') :
      Heads head ((.bitwiseAnd, u) :: (gap ++ m :: ls)) head'

theorem Heads.type {ts : List (Kind × List Char)} (hts : TypeLexemes ts) {head head' : Tokens.ParameterHead}
    {ls : List (Kind × List Char)}
    (h : Heads { head with type := head.type ++ String.ofList (spelled ts) } ls head') :
    Heads head (ts ++ ls) head' := by
  have hsplit : ∀ (l : Kind × List Char) (ts : List (Kind × List Char)) (s : String),
      s ++ String.ofList (spelled (l :: ts)) = s ++ String.ofList l.2 ++ String.ofList (spelled ts) := by
    intro l ts s
    rw [spelled_cons, String.ofList_append, String.append_assoc]
  induction hts generalizing head with
  | nil => simpa using h
  | part hl _ ih =>
    rw [hsplit] at h
    exact .part hl (ih h)
  | both hl hm _ ih =>
    rw [hsplit] at h
    exact .both hl hm (ih h)

inductive Modifier where
  | pub | prot | priv | readonly

namespace Modifier

def keyword : Modifier → String × Kind
  | .pub => ("public", .kwPublic)
  | .prot => ("protected", .kwProtected)
  | .priv => ("private", .kwPrivate)
  | .readonly => ("readonly", .kwReadonly)

def text (m : Modifier) : List Char :=
  m.keyword.1.toList

end Modifier

/-- A parameter: its parts, and whether the marks before its name stand apart from what follows them. -/
structure Parameter where
  attributes : List Attribute
  modifiers : List Modifier
  type : Option TypeText
  byReference : Bool
  variadic : Bool
  apart : Bool
  name : Identifier
  default : Option Value

namespace Parameter

variable (p : Parameter)

def gap : List Char :=
  if p.apart then [' '] else []

def marksText : List Char :=
  (if p.byReference then '&' :: p.gap else []) ++ (if p.variadic then ['.', '.', '.'] ++ p.gap else [])

def typeText : List Char :=
  (p.type.map TypeText.text).getD []

def defaultText : List Char :=
  match p.default with
  | none => []
  | some v => ' ' :: '=' :: ' ' :: v.text

/-- The parts of a parameter, with a space behind each part before its variable. -/
def text : List Char :=
  (p.attributes.flatMap fun a => a.text ++ [' ']) ++ ((p.modifiers.flatMap fun m => m.text ++ [' ']) ++
    ((match p.type with
      | none => []
      | some t => t.text ++ [' ']) ++ (p.marksText ++ ('$' :: (p.name.text ++ p.defaultText)))))

/-- What a reader knows of the parameter at its variable. -/
def head : Tokens.ParameterHead where
  type := String.ofList p.typeText
  variadic := p.variadic
  byReference := p.byReference
  promoted := !p.modifiers.isEmpty

end Parameter

/-! ### The lexemes of a parameter -/

/-- The lexemes of a default, with those before it. -/
inductive DefaultLexemes : Option Value → List (Kind × List Char) → Prop
  | none : DefaultLexemes none []
  | some {v : Value} {ls : List (Kind × List Char)} (h : ValuePhrase v ls) :
      DefaultLexemes (some v) ((.blank, [' ']) :: (.assign, ['=']) :: (.blank, [' ']) :: ls)

/-- From `start` on, `head` tells of a parameter what there is to tell up to its variable, and `tail` is
its default. -/
structure Parsed (p : Parameter) (start : Tokens.ParameterHead) (head tail : List (Kind × List Char)) :
    Prop where
  heads : Heads start head p.head
  named : ∃ init, head = init ++ [(.variableName, '$' :: p.name.text)]
  default : DefaultLexemes p.default tail
  closed : Closed ((head ++ tail).map (·.1))

/-- The end `text` of a parameter, read where `z` follows, tells what `start` does not yet tell. -/
def Readable (p : Parameter) (text z : List Char) (start : Tokens.ParameterHead) : Prop :=
  ∀ last, namesMember last = false → ∃ head tail, Parsed p start head tail ∧
    spelled (head ++ tail) = text ∧ Writes last (head ++ tail) z

theorem Readable.prepend {p : Parameter} {lead text z : List Char} {start start' : Tokens.ParameterHead}
    (h : Readable p text z start')
    (hlead : ∀ last, namesMember last = false → ∃ us, spelled us = lead ∧ Closed (us.map (·.1)) ∧
      namesMember (lastKind last us) = false ∧ Writes last us (text ++ z) ∧
      ∀ head, Heads start' head p.head → Heads start (us ++ head) p.head) :
    Readable p (lead ++ text) z start := by
  intro last hlast
  obtain ⟨us, hspelled, hclosed, hlast', hwrites, hheads⟩ := hlead last hlast
  obtain ⟨head, tail, hparsed, htext, hrest⟩ := h _ hlast'
  obtain ⟨init, hinit⟩ := hparsed.named
  refine ⟨us ++ head, tail, ⟨hheads head hparsed.heads, ⟨us ++ init, by simp [hinit]⟩, hparsed.default, ?_⟩,
    ?_, ?_⟩
  · rw [List.append_assoc, List.map_append]
    exact hclosed.append hparsed.closed
  · rw [List.append_assoc, spelled_append, hspelled, htext]
  · rw [List.append_assoc]
    exact .append (by rwa [htext]) hrest

theorem namesMember_lastKind {last : Option Kind} (hlast : namesMember last = false)
    {ls : List (Kind × List Char)} (h : ∀ l ∈ ls, namesMember (some l.1) = false) :
    namesMember (lastKind last ls) = false := by
  induction ls generalizing last with
  | nil => exact hlast
  | cons l ls ih =>
    obtain ⟨hl, hls⟩ := List.forall_mem_cons.1 h
    rw [lastKind_cons]
    refine ih ?_ hls
    split
    · exact hl
    · exact hlast

theorem TypeLexemes.namesMember {ls : List (Kind × List Char)} (h : TypeLexemes ls) :
    ∀ l ∈ ls, namesMember (some l.1) = false := by
  have hparts : ∀ k ∈ typeParts, Lexer.namesMember (some k) = false := by decide
  induction h with
  | nil => exact nofun
  | part hl _ ih => exact List.forall_mem_cons.2 ⟨hparts _ hl, ih⟩
  | both hl _ _ ih => exact List.forall_mem_cons.2 ⟨by rw [hl]; rfl, ih⟩

namespace Parameter

variable (p : Parameter)

theorem exists_default {z : List Char} (hz : Ends z) : ∃ tail, DefaultLexemes p.default tail ∧
    spelled tail = p.defaultText ∧ Closed (tail.map (·.1)) ∧ Halts (spelled tail ++ z) ∧
    ∀ last, Writes last tail z := by
  rw [defaultText]
  cases p.default with
  | none => exact ⟨[], .none, rfl, .nil, hz.follows.halts, fun last => .nil last z⟩
  | some v =>
    obtain ⟨ls, hls⟩ := v.exists_phrase
    have hinked : Inked (spelled ls ++ z) := by
      rw [hls.spelled_eq]
      exact hls.inked.append z
    refine ⟨_, .some hls, ?_, ?_, ?_, fun last => ?_⟩
    · simp [hls.spelled_eq]
    · exact .cons rfl nofun (.cons rfl nofun (.cons rfl nofun hls.closed))
    · exact Follows.halts_blank _
    · refine .cons (writes_blank (inked_of_mem (by decide))) ?_
      refine .cons (writes_sign (by decide) (by decide) _) ?_
      exact .cons (writes_blank hinked) (hls.writes (some .assign) z (by simp [StartsValue]) hz)

/-- The space behind a mark, if there is one. -/
def gapLexemes : List (Kind × List Char) :=
  if p.apart then [(.blank, [' '])] else []

theorem gapLexemes_cases : p.gapLexemes = [] ∧ p.gap = [] ∨
    p.gapLexemes = [(.blank, [' '])] ∧ p.gap = [' '] := by
  rw [gapLexemes, gap]
  cases p.apart
  · exact .inl ⟨rfl, rfl⟩
  · exact .inr ⟨rfl, rfl⟩

theorem Heads.gap {start head' : Tokens.ParameterHead} {ls : List (Kind × List Char)}
    (h : Heads start ls head') : Heads start (p.gapLexemes ++ ls) head' := by
  rcases p.gapLexemes_cases with ⟨hgap, -⟩ | ⟨hgap, -⟩
  · rwa [hgap]
  · rw [hgap]
    exact .blank h

/-- Lexemes of a parameter's end with its variable as the last. -/
structure Marked (start : Tokens.ParameterHead) (text z : List Char) (ls : List (Kind × List Char)) :
    Prop where
  first : ∃ m ms, ls = m :: ms ∧ (m.1 = .variableName ∨ m.1 = .ellipsis)
  heads : Heads start ls p.head
  named : ∃ init, ls = init ++ [(.variableName, '$' :: p.name.text)]
  spelled_eq : spelled ls = text
  inked : Inked text
  closed : Closed (ls.map (·.1))
  writes : ∀ last, Writes last ls z

theorem marked_name {z : List Char} (hz : Halts z) :
    p.Marked p.head ('$' :: p.name.text) z [(.variableName, '$' :: p.name.text)] where
  first := ⟨_, _, rfl, .inl rfl⟩
  heads := .named _ _
  named := ⟨[], rfl⟩
  spelled_eq := by simp
  inked := inked_of_mem (by decide)
  closed := .cons rfl nofun .nil
  writes _ := writes_variable p.name.isNameStart_first p.name.isNameChar_rest hz

theorem spelled_gap_append {ls : List (Kind × List Char)} :
    spelled (p.gapLexemes ++ ls) = p.gap ++ spelled ls := by
  rcases p.gapLexemes_cases with ⟨hls, hgap⟩ | ⟨hls, hgap⟩ <;> simp [hls, hgap]

theorem closed_gap : Closed (p.gapLexemes.map (·.1)) := by
  rcases p.gapLexemes_cases with ⟨hls, -⟩ | ⟨hls, -⟩
  · rw [hls]
    exact .nil
  · rw [hls]
    exact .cons rfl nofun .nil

theorem writes_gap {ls : List (Kind × List Char)} {z : List Char} (hinked : Inked (spelled ls ++ z))
    (h : ∀ last, Writes last ls z) (last : Option Kind) : Writes last (p.gapLexemes ++ ls) z := by
  rcases p.gapLexemes_cases with ⟨hls, -⟩ | ⟨hls, -⟩
  · rw [hls]
    exact h last
  · rw [hls]
    exact .append (writes_blank hinked) (h _)

theorem marked_ellipsis {z : List Char} (hz : Halts z) : ∃ ls,
    p.Marked { p.head with variadic := false }
      ((if p.variadic then ['.', '.', '.'] ++ p.gap else []) ++ '$' :: p.name.text) z ls := by
  obtain ⟨-, hheads, -, hspelled, hinked, hclosed, hwrites⟩ := p.marked_name hz
  cases hvariadic : p.variadic with
  | false =>
    have hhead : { p.head with variadic := false } = p.head := by rw [head, hvariadic]
    exact ⟨_, by rw [hhead]; exact p.marked_name hz⟩
  | true =>
    have hhead : { { p.head with variadic := false } with variadic := true } = p.head := by
      rw [head, hvariadic]
    refine ⟨(.ellipsis, ['.', '.', '.']) :: (p.gapLexemes ++ [(.variableName, '$' :: p.name.text)]),
      ⟨_, _, rfl, .inr rfl⟩, .ellipsis ?_, ?_, ?_, inked_of_mem (by decide), ?_, fun last => ?_⟩
    · rw [hhead]
      exact Heads.gap p hheads
    · exact ⟨(.ellipsis, ['.', '.', '.']) :: p.gapLexemes, rfl⟩
    · rw [spelled_cons, spelled_gap_append, hspelled, if_pos rfl, List.append_assoc]
    · rw [List.map_cons, List.map_append]
      exact .cons rfl nofun (p.closed_gap.append hclosed)
    · refine .cons (writes_ellipsis _) (p.writes_gap ?_ hwrites _)
      rw [hspelled]
      exact hinked.append z

theorem exists_marks_first : ∃ d w, p.gap ++ ((if p.variadic then ['.', '.', '.'] ++ p.gap else []) ++
    '$' :: p.name.text) = d :: w ∧ d ∈ [' ', '.', '$'] := by
  rcases p.gapLexemes_cases with ⟨-, hgap⟩ | ⟨-, hgap⟩
  · rw [hgap]
    cases p.variadic
    · exact ⟨_, _, rfl, by decide⟩
    · exact ⟨_, _, rfl, by decide⟩
  · rw [hgap]
    exact ⟨_, _, rfl, by decide⟩

theorem readable_marks {z : List Char} (hz : Ends z) :
    Readable p (p.marksText ++ '$' :: (p.name.text ++ p.defaultText)) z
      { p.head with variadic := false, byReference := false } := by
  intro last _
  obtain ⟨tail, htail, hspelled, hclosed, hhalts, hwrites⟩ := p.exists_default hz
  obtain ⟨ls, ⟨m, ms, rfl, hm⟩, hheads, ⟨init, hinit⟩, htext, hinked, hmarked, hrest⟩ := p.marked_ellipsis hhalts
  have hname : ∀ u, u ++ (((if p.variadic then ['.', '.', '.'] ++ p.gap else []) ++ '$' :: p.name.text) ++
      p.defaultText) = (u ++ if p.variadic then ['.', '.', '.'] ++ p.gap else []) ++
        '$' :: (p.name.text ++ p.defaultText) := by
    intro u
    simp
  rw [marksText, ← hname]
  cases href : p.byReference with
  | false =>
    have hhead : { p.head with variadic := false, byReference := false } = { p.head with variadic := false } := by
      rw [head, href]
    rw [hhead]
    refine ⟨m :: ms, tail, ⟨hheads, ⟨init, hinit⟩, htail, ?_⟩, ?_, .append (hrest _) (hwrites _)⟩
    · rw [List.map_append]
      exact hmarked.append hclosed
    · rw [spelled_append, htext, hspelled]
      rfl
  | true =>
    have hhead : { { p.head with variadic := false, byReference := false } with byReference := true } =
        { p.head with variadic := false } := by
      rw [head, href]
    have hgap : p.gapLexemes = [] ∨ p.gapLexemes = [(.blank, [' '])] :=
      p.gapLexemes_cases.imp And.left And.left
    obtain ⟨d, w, hw, hd⟩ := p.exists_marks_first
    have hmark : ∀ d ∈ [' ', '.', '$'], d ∉ seconds := by decide
    refine ⟨(.bitwiseAnd, ['&']) :: (p.gapLexemes ++ m :: ms), tail, ⟨.reference hgap hm ?_, ?_, htail, ?_⟩, ?_,
      .append (.cons ?_ (p.writes_gap ?_ hrest _)) (hwrites _)⟩
    · rw [hhead]
      exact Heads.gap p hheads
    · exact ⟨(.bitwiseAnd, ['&']) :: (p.gapLexemes ++ init), by simp [hinit]⟩
    · rw [List.map_append, List.map_cons, List.map_append]
      exact .cons rfl nofun ((p.closed_gap.append hmarked).append hclosed)
    · rw [spelled_append, spelled_cons, spelled_gap_append, htext, hspelled, if_pos rfl]
      simp
    · rw [spelled_gap_append, htext, hw, List.cons_append]
      exact writes_sign (by decide) (hmark d hd) _
    · rw [htext]
      exact hinked.append _

/-- The text from the marks on. -/
def markedText : List Char :=
  p.marksText ++ '$' :: (p.name.text ++ p.defaultText)

theorem markedText_first : ∃ d w, p.markedText = d :: w ∧ d ∈ ['&', '.', '$'] := by
  rw [markedText, marksText]
  cases p.byReference
  · cases p.variadic
    · exact ⟨_, _, rfl, by decide⟩
    · exact ⟨_, _, rfl, by decide⟩
  · exact ⟨_, _, rfl, by decide⟩

theorem inked_markedText : Inked p.markedText := by
  obtain ⟨d, w, hw, hd⟩ := p.markedText_first
  have hmarks : ∀ d ∈ ['&', '.', '$'], d ∉ [' ', '\t', '\r', '\n'] := by decide
  rw [hw]
  exact inked_of_mem (hmarks d hd)

/-- The text from the type on. -/
def typedText : List Char :=
  (match p.type with
    | none => []
    | some t => t.text ++ [' ']) ++ p.markedText

theorem inked_typedText : Inked p.typedText := by
  rw [typedText]
  cases p.type with
  | none => exact p.inked_markedText
  | some t => exact (t.inked_text.append _).append _

theorem readable_typed {z : List Char} (hz : Ends z) : Readable p p.typedText z
    { p.head with type := "", variadic := false, byReference := false } := by
  have hmarks := p.readable_marks hz
  rw [typedText]
  cases htype : p.type with
  | none =>
    have hhead : p.head.type = "" := by
      rw [head, typeText, htype]
      rfl
    rwa [← hhead]
  | some t =>
    refine hmarks.prepend fun last hlast => ?_
    obtain ⟨d, w, hw, hd⟩ := p.markedText_first
    have hunnamed : ∀ d ∈ ['&', '.', '$'], isBlank d = false ∧ isNameStart d = false := by decide
    obtain ⟨hblank, hstart⟩ := hunnamed d hd
    have hfollows : Follows (' ' :: (p.markedText ++ z)) := by
      refine .of_blank ?_
      rw [hw]
      simp [trimStart, hblank, hstart]
    obtain ⟨ls, hspelled, hparts, hclosed, hwrites⟩ := t.exists_lexemes hlast hfollows
    refine ⟨ls ++ [(.blank, [' '])], ?_, ?_, ?_, ?_, fun head hhead => ?_⟩
    · simp [spelled_append, hspelled]
    · rw [List.map_append]
      exact hclosed.append (.cons rfl (by decide) .nil)
    · rw [lastKind_append]
      exact namesMember_lastKind hlast hparts.namesMember
    · exact .append hwrites (writes_blank (p.inked_markedText.append z))
    · rw [List.append_assoc]
      refine Heads.type hparts (.blank ?_)
      have htext : "" ++ String.ofList (spelled ls) = p.head.type := by
        rw [hspelled, Parameter.head, typeText, htype]
        simp
      rw [htext]
      exact hhead

theorem inked_flatMap {α : Type} {f : α → List Char} (hf : ∀ a, Inked (f a)) {text : List Char}
    (h : Inked text) (as : List α) : Inked (as.flatMap (fun a => f a ++ [' ']) ++ text) := by
  cases as with
  | nil => exact h
  | cons a as =>
    rw [List.flatMap_cons, List.append_assoc, List.append_assoc]
    exact (hf a).append _

theorem modifier_keyword (m : Modifier) : m.keyword ∈ keywords ∧ lower m.text = m.keyword.1.toList ∧
    Inked m.text ∧ Tokens.promotes m.keyword.2 = true ∧ Closed [m.keyword.2] ∧
    ∀ last, lastKind last [(m.keyword.2, m.text), (.blank, [' '])] = some m.keyword.2 ∧
      namesMember (some m.keyword.2) = false := by
  cases m
  all_goals
    exact ⟨by decide, by decide, inked_of_mem (by decide), rfl, .cons rfl nofun .nil, fun _ => ⟨rfl, rfl⟩⟩

theorem readable_modifiers {p : Parameter} {text z : List Char} {start : Tokens.ParameterHead}
    (hinked : Inked text) (ms : List Modifier)
    (h : Readable p text z { start with promoted := start.promoted || !ms.isEmpty }) :
    Readable p (ms.flatMap (fun m => m.text ++ [' ']) ++ text) z start := by
  induction ms generalizing start with
  | nil => simpa using h
  | cons m ms ih =>
    obtain ⟨hmem, hlower, -, hpromotes, hclosed, hlast'⟩ := modifier_keyword m
    have hrest : Readable p (ms.flatMap (fun m => m.text ++ [' ']) ++ text) z
        { start with promoted := true } := by
      refine ih ?_
      simpa using h
    have hink : Inked (ms.flatMap (fun m => m.text ++ [' ']) ++ text) :=
      inked_flatMap (fun m => (modifier_keyword m).2.2.1) hinked ms
    rw [List.flatMap_cons, List.append_assoc]
    refine hrest.prepend fun last hlast => ?_
    refine ⟨[(m.keyword.2, m.text), (.blank, [' '])], by simp, ?_, ?_, ?_, fun head hhead => ?_⟩
    · exact hclosed.append (.cons rfl nofun .nil)
    · rw [(hlast' last).1]
      exact (hlast' last).2
    · exact .cons (writes_keyword hmem hlower hlast (Follows.halts_blank _)) (writes_blank (hink.append z))
    · exact .modifier hpromotes (.blank hhead)

theorem readable_attributes {p : Parameter} {text z : List Char} {start : Tokens.ParameterHead}
    (hinked : Inked text) (as : List Attribute) (h : Readable p text z start) :
    Readable p (as.flatMap (fun a => a.text ++ [' ']) ++ text) z start := by
  induction as with
  | nil => exact h
  | cons a as ih =>
    have hink : Inked (as.flatMap (fun a => a.text ++ [' ']) ++ text) :=
      inked_flatMap (fun _ => inked_of_mem (by decide)) hinked as
    obtain ⟨ls, hclosed, hspelled, hwrites⟩ := a.exists_inner
    rw [List.flatMap_cons, List.append_assoc]
    refine ih.prepend fun last _ => ?_
    refine ⟨(.openAttribute, ['#', '[']) :: (ls ++ [(.closeAttribute, [']'])]) ++ [(.blank, [' '])], ?_, ?_, ?_,
      ?_, fun head hhead => ?_⟩
    · rw [spelled_append, hspelled]
      rfl
    · rw [List.map_append]
      exact (Closed.bracketed rfl hclosed.balanced).append (.cons rfl nofun .nil)
    · have hlast' : lastKind last ((.openAttribute, ['#', '[']) :: (ls ++ [(.closeAttribute, [']'])])) =
          some .closeAttribute := by
        rw [lastKind_cons, lastKind_append]
        rfl
      rw [lastKind_append, hlast']
      rfl
    · exact .append (hwrites last _) (writes_blank (hink.append z))
    · simpa using Heads.enclosed hclosed (.blank hhead)

theorem inked_text (p : Parameter) : Inked p.text := by
  refine inked_flatMap (fun a => inked_of_mem (by decide)) ?_ p.attributes
  exact inked_flatMap (fun m => (modifier_keyword m).2.2.1) p.inked_typedText p.modifiers

/-- A parameter behind the opening parenthesis does not make it a cast. -/
theorem uncast_text (p : Parameter) (z : List Char) : Uncast (p.text ++ z) := by
  have hblank : Uncast [' '] := .of_not_mem (by decide)
  have hmarks : Uncast (p.markedText ++ z) := by
    obtain ⟨d, w, hw, hd⟩ := p.markedText_first
    have huncast : ∀ d ∈ ['&', '.', '$'], isCastChar d = false ∧ d ≠ ')' := by decide
    rw [hw]
    exact .of_head (huncast d hd).1 (huncast d hd).2
  have htype : Uncast (match p.type with
      | none => []
      | some t => t.text ++ [' ']) := by
    cases p.type with
    | none => exact nofun
    | some t => exact .append t.uncast_text hblank
  have hmodifier : ∀ m : Modifier, Uncast (m.text ++ [' ']) := by
    intro m
    cases m <;> exact .of_not_mem (by decide)
  rw [text, ← markedText, List.append_assoc, List.append_assoc, List.append_assoc]
  refine .append (uncast_flatMap (fun _ => .of_head (by decide) (by decide)) _) ?_
  exact .append (uncast_flatMap hmodifier _) (.append htype hmarks)

theorem readable (p : Parameter) {z : List Char} (hz : Ends z) : Readable p p.text z {} := by
  have htyped := p.readable_typed hz
  refine readable_attributes (inked_flatMap (fun m => (modifier_keyword m).2.2.1) p.inked_typedText _) _ ?_
  exact readable_modifiers p.inked_typedText _ htyped

end Parameter

end PhpStyle.Written

import PhpStyle.Proofs.WrittenParameters

/-!
# Parameters read back

The parameters of a function are read as they were written (`parameters_written`): one for each, in
order, with its name, its type, its default and its marks. The lexemes of one parameter are read from the
left up to its variable (`parameterHead_of_heads`), its default is told by the first lexemes behind the
equals sign (`defaultAfter_value`), and the list is split at the commas between parameters, since those in
attributes and defaults stand in brackets.
-/

namespace PhpStyle.Written

open Text Lexer Tokens

variable {source : String} {i n stop : Nat}

theorem parameterHead_of_stands {l : Kind × List Char} {ls : List (Kind × List Char)}
    (h : Stands source i (l :: ls)) (head : ParameterHead) (hi : i < stop) :
    (ofSource source).parameterHead head i stop =
      if l.1 = .openAttribute then (ofSource source).parameterHead head
        (max (((ofSource source).links i).bracketCloser.getD i + 1) (i + 1)) stop
      else if l.1 = .variableName then some (head, i)
      else if l.1 = .ellipsis then
        (ofSource source).parameterHead { head with variadic := true } (i + 1) stop
      else if promotes l.1 then
        (ofSource source).parameterHead { head with promoted := true } (i + 1) stop
      else if l.1 = .bitwiseAnd ∧ ((ofSource source).nextEffective i).any ((ofSource source).kindIs
          fun k => k == .variableName || k == .ellipsis) = true then
        (ofSource source).parameterHead { head with byReference := true } (i + 1) stop
      else if l.1.isTrivia then (ofSource source).parameterHead head (i + 1) stop
      else (ofSource source).parameterHead
        { head with type := head.type ++ String.ofList l.2 } (i + 1) stop := by
  obtain ⟨t, ht, hkind, hcontent⟩ := h.get?
  rw [parameterHead_eq head hi ht, hkind, hcontent, Tokens.links_of_get? ht]

theorem not_marks_of_mem_typeParts : ∀ k ∈ typeParts, k ≠ .openAttribute ∧ k ≠ .variableName ∧
    k ≠ .ellipsis ∧ promotes k = false ∧ k ≠ .bitwiseAnd ∧ k.isTrivia = false := by
  decide

theorem not_marks_of_promotes {k : Kind} (h : promotes k = true) :
    k ≠ .openAttribute ∧ k ≠ .variableName ∧ k ≠ .ellipsis := by
  cases k <;> first | decide | cases h

theorem parameterHead_of_heads {start head' : ParameterHead} {ls : List (Kind × List Char)}
    (h : Heads start ls head') (hs : Stands source i ls) (hn : i + ls.length = n + 1)
    (hstop : n < stop) : (ofSource source).parameterHead start i stop = some (head', n) := by
  induction h generalizing i with
  | named head u =>
    obtain rfl : i = n := by simpa using hn
    rw [parameterHead_of_stands hs head hstop, if_neg nofun, if_pos rfl]
  | blank _ ih =>
    rw [List.length_cons] at hn
    rw [parameterHead_of_stands hs _ (by omega)]
    exact ih hs.tail (by omega)
  | @enclosed head head' u v inner ls hinner _ ih =>
    rw [List.length_cons, List.length_append, List.length_cons] at hn
    have hsplit : (Kind.openAttribute, u) :: (inner ++ (Kind.closeAttribute, v) :: ls) =
        ((.openAttribute, u) :: (inner ++ [(.closeAttribute, v)])) ++ ls := by simp
    rw [hsplit] at hs
    have hcloser := hs.left.bracketCloser rfl hinner.balanced
    have hnext : max (i + 1 + inner.length + 1) (i + 1) =
        i + ((Kind.openAttribute, u) :: (inner ++ [(Kind.closeAttribute, v)])).length := by
      simp only [List.length_cons, List.length_append, List.length_nil]
      omega
    rw [parameterHead_of_stands hs.left _ (by omega), if_pos rfl, hcloser, Option.getD_some, hnext]
    exact ih hs.right (by simp only [List.length_cons, List.length_append, List.length_nil]; omega)
  | modifier hl _ ih =>
    rw [List.length_cons] at hn
    obtain ⟨hattribute, hvariable, hellipsis⟩ := not_marks_of_promotes hl
    rw [parameterHead_of_stands hs _ (by omega), if_neg hattribute, if_neg hvariable, if_neg hellipsis,
      if_pos hl]
    exact ih hs.tail (by omega)
  | ellipsis _ ih =>
    rw [List.length_cons] at hn
    rw [parameterHead_of_stands hs _ (by omega)]
    exact ih hs.tail (by omega)
  | part hl _ ih =>
    rw [List.length_cons] at hn
    obtain ⟨hattribute, hvariable, hellipsis, hpromotes, hboth, htrivia⟩ := not_marks_of_mem_typeParts _ hl
    rw [parameterHead_of_stands hs _ (by omega), if_neg hattribute, if_neg hvariable, if_neg hellipsis,
      hpromotes, if_neg Bool.false_ne_true, if_neg (fun h => hboth h.1), htrivia, if_neg Bool.false_ne_true]
    exact ih hs.tail (by omega)
  | @both head head' l m ls hl hm _ ih =>
    rw [List.length_cons] at hn
    have hname : ∀ k ∈ typeNames, k.isEffective = true ∧
        (k == .variableName || k == .ellipsis) = false := by
      decide
    obtain ⟨heffective, hmark⟩ := hname _ hm
    have hnext : (ofSource source).nextEffective i = some (i + 1) :=
      hs.nextEffective_eq [] nofun heffective
    rw [parameterHead_of_stands hs _ (by omega), hnext, Option.any_some, hs.tail.kindIs_eq, hmark, hl]
    exact ih hs.tail (by omega)
  | @reference head head' u m gap ls hgap hm _ ih =>
    rw [List.length_cons] at hn
    have hblank : ∀ b ∈ gap, b.1.isEffective = false := by
      rcases hgap with rfl | rfl
      · exact nofun
      · decide
    have heffective : m.1.isEffective = true ∧ (m.1 == .variableName || m.1 == .ellipsis) = true := by
      rcases hm with hm | hm <;> rw [hm] <;> decide
    have hnext := hs.nextEffective_eq gap hblank heffective.1
    rw [parameterHead_of_stands hs _ (by omega), hnext, Option.any_some, hs.tail.right.kindIs_eq,
      heffective.2]
    exact ih hs.tail (by omega)

theorem defaultAfter_none (ts : Tokens) (n : Nat) : ts.defaultAfter n (n + 1) = .none := by
  simp [defaultAfter, findNextEffective, findNext, scanUp]

theorem defaultAfter_value {v : Value} {ls : List (Kind × List Char)} (hv : ValuePhrase v ls)
    (h : Stands source (n + 1) ((.blank, [' ']) :: (.assign, ['=']) :: (.blank, [' ']) :: ls))
    (hstop : stop = n + 4 + ls.length) : (ofSource source).defaultAfter n stop = v.category := by
  rw [← hv.lead]
  obtain ⟨⟨k, u⟩, ms, rfl, heffective, hsecond⟩ := hv.starts
  rw [List.length_cons] at hstop
  have hblank : ∀ b ∈ [(Kind.blank, [' '])], b.1.isEffective = false := by decide
  have hassign : (ofSource source).findNextEffective (n + 1) (some stop) = some (n + 1 + 1) :=
    h.findNextEffective_eq [_] hblank rfl (by simp only [List.length_singleton]; omega)
  have hvalue : (ofSource source).findNextEffective (n + 1 + 1 + 1) (some stop) =
      some (n + 1 + 1 + 1 + 1) :=
    h.tail.tail.findNextEffective_eq [_] hblank heffective (by simp only [List.length_singleton]; omega)
  have hkind : (ofSource source).kindIs (· == .assign) (n + 1 + 1) = true := h.tail.kindIs_eq _
  have hnear : n + 1 + 1 ≤ n + 3 := by omega
  have hthere := h.tail.tail.tail
  rw [defaultAfter, hassign, Option.filter_some, hkind, decide_eq_true hnear, Bool.and_true, if_pos rfl]
  simp only [hvalue, hthere.kind?_eq, hthere.content_eq]
  by_cases hoperator : k = .operator
  · subst hoperator
    obtain ⟨⟨k, w⟩, ms, rfl, hm⟩ := hsecond rfl
    rw [List.length_cons] at hstop
    have hnext : (ofSource source).findNextEffective (n + 1 + 1 + 1 + 1 + 1) (some stop) = some (n + 5) :=
      hthere.tail.findNextEffective_eq [] (List.forall_mem_nil _) hm (by simp only [List.length_nil]; omega)
    rw [hnext, Option.bind_some, hthere.tail.kind?_eq]
    have hsign : ∀ s : String, String.ofList u = s ↔ u = s.toList := fun s => by
      rw [← String.toList_inj, String.toList_ofList]
    by_cases hplus : u = ['+']
    · subst hplus
      cases k <;> rfl
    by_cases hminus : u = ['-']
    · subst hminus
      cases k <;> rfl
    · have hlead : leadCategory ((.operator, u) :: (k, w) :: ms) = .expression := by
        simp [leadCategory, hplus, hminus]
      simp [hsign, hplus, hminus, hlead]
  · cases k <;> first | rfl | exact absurd rfl hoperator

/-- The parameter `q`, read from the tokens `ts`, is `p` as it was written. -/
structure Recovers (ts : Tokens) (p : Parameter) (q : PhpStyle.Parameter) : Prop where
  kind : ts.kind? q.nameIndex = some .variableName
  content : ts.content q.nameIndex = String.ofList ('$' :: p.name.text)
  name : q.name = String.ofList ('$' :: p.name.text)
  type : q.type.map (·.full) = p.type.map fun t => String.ofList t.text
  bare : q.type.map (·.bare) = p.type.map fun t => String.ofList t.bare
  nullable : q.nullable = true ↔
    (∃ t ∈ p.type, t.isNullable = true) ∨ ∃ v ∈ p.default, v.category = .null
  default : q.default = (p.default.map Value.category).getD .none
  variadic : q.variadic = p.variadic
  byReference : q.byReference = p.byReference
  promoted : q.promoted = !p.modifiers.isEmpty

/-- The lexemes of a parameter and its default. -/
def Piece (p : Parameter) (ls : List (Kind × List Char)) : Prop :=
  ∃ head tail, ls = head ++ tail ∧ Parsed p {} head tail

theorem Piece.closed {p : Parameter} {ls : List (Kind × List Char)} (hp : Piece p ls) :
    Closed (ls.map (·.1)) := by
  obtain ⟨head, tail, rfl, hparsed⟩ := hp
  exact hparsed.closed

theorem Parameter.ofText?_typeText (p : Parameter) : DeclaredType.ofText? (String.ofList p.typeText) =
    p.type.map fun t => ⟨String.ofList t.text, t.isNullable⟩ := by
  rw [Parameter.typeText]
  cases p.type with
  | none => rfl
  | some t => exact t.ofText?_text

theorem defaultAfter_of_stands {d : Option Value} {w : List Char} {tail : List (Kind × List Char)}
    (hd : DefaultLexemes d tail) (h : Stands source n ((.variableName, w) :: tail))
    (hstop : stop = n + 1 + tail.length) :
    (ofSource source).defaultAfter n stop = (d.map Value.category).getD .none := by
  subst hstop
  cases hd with
  | none => exact defaultAfter_none _ n
  | some hv => exact defaultAfter_value hv h.tail (by simp only [List.length_cons]; omega)

theorem Piece.recovers {p : Parameter} {ls : List (Kind × List Char)} (hp : Piece p ls)
    (h : Stands source i ls) (hstop : stop = i + ls.length) :
    ∃ q, (ofSource source).parameter? i stop = some q ∧ Recovers (ofSource source) p q := by
  obtain ⟨head, tail, rfl, hparsed⟩ := hp
  obtain ⟨init, rfl⟩ := hparsed.named
  have hlength : stop = i + init.length + 1 + tail.length := by
    simp only [hstop, List.length_append, List.length_singleton]
    omega
  have hhead : (ofSource source).parameterHead {} i stop = some (p.head, i + init.length) :=
    parameterHead_of_heads hparsed.heads h.left
      (by simp only [List.length_append, List.length_singleton]; omega) (by omega)
  rw [List.append_assoc] at h
  have hname : Stands source (i + init.length) ((.variableName, '$' :: p.name.text) :: tail) := h.right
  have hdefault := defaultAfter_of_stands hparsed.default hname hlength
  refine ⟨{
    nameIndex := i + init.length
    name := String.ofList ('$' :: p.name.text)
    type := p.type.map fun t => ⟨String.ofList t.text, t.isNullable⟩
    default := (p.default.map Value.category).getD .none
    variadic := p.variadic
    byReference := p.byReference
    promoted := !p.modifiers.isEmpty }, ?_, hname.kind?_eq, hname.content_eq, rfl, ?_, ?_, ?_,
    rfl, rfl, rfl, rfl⟩
  · rw [← hdefault, ← hname.content_eq, ← p.ofText?_typeText, parameter?, hhead]
    rfl
  · rw [Option.map_map]
    rfl
  · rw [Option.map_map]
    exact congrFun (congrArg Option.map (funext fun t => t.bare_declared _)) p.type
  · simp only [PhpStyle.Parameter.nullable, Bool.or_eq_true, beq_iff_eq]
    refine or_congr ?_ ?_
    · cases p.type <;> simp
    · cases p.default <;> simp

/-! ### The list -/

/-- Pieces behind commas. -/
def listed (pieces : List (List (Kind × List Char))) : List (Kind × List Char) :=
  pieces.flatMap fun ls => (.comma, [',']) :: ls

theorem recovers_pieces {p : Parameter} {ps : List Parameter} {piece : List (Kind × List Char)}
    {pieces : List (List (Kind × List Char))} (hp : Piece p piece) (hps : List.Forall₂ Piece ps pieces)
    (h : Stands source i (piece ++ listed pieces)) (hstop : stop = i + (piece ++ listed pieces).length) :
    List.Forall₂ (Recovers (ofSource source)) (p :: ps)
      (((ofSource source).splitAtCommas i i stop).filterMap fun q =>
        (ofSource source).parameter? q.1 q.2) := by
  induction hps generalizing p piece i with
  | nil =>
    have hlast : stop = i + piece.length := by simpa [listed] using hstop
    obtain ⟨q, hq, hrecovers⟩ := hp.recovers h.left hlast
    rw [h.left.splitAtCommas_closed hp.closed (by omega), ← hlast, splitAtCommas,
      if_neg (lt_irrefl stop), List.filterMap_cons, hq]
    exact .cons hrecovers .nil
  | @cons p' piece' ps pieces hnext _ ih =>
    obtain ⟨q, hq, hrecovers⟩ := hp.recovers h.left rfl
    have hlisted : listed (piece' :: pieces) = (.comma, [',']) :: (piece' ++ listed pieces) := rfl
    rw [hlisted] at h hstop
    obtain ⟨t, ht, hkind, -⟩ := h.right.get?
    have hopener : t.kind.isOpener = false := by rw [hkind]; rfl
    rw [List.length_append, List.length_cons] at hstop
    rw [h.left.splitAtCommas_closed hp.closed (by omega), splitAtCommas_eq (by omega) ht, hopener,
      if_neg Bool.false_ne_true, if_pos hkind, List.filterMap_cons, hq]
    exact .cons hrecovers (ih hnext h.right.tail (by omega))

theorem Piece.blank {p : Parameter} {ls : List (Kind × List Char)} (hp : Piece p ls) :
    Piece p ((.blank, [' ']) :: ls) := by
  obtain ⟨head, tail, rfl, hheads, ⟨init, hinit⟩, hdefault, hclosed⟩ := hp
  exact ⟨(.blank, [' ']) :: head, tail, rfl, .blank hheads, ⟨(.blank, [' ']) :: init, by simp [hinit]⟩,
    hdefault, .cons rfl nofun hclosed⟩

theorem exists_piece (p : Parameter) (last : Option Kind) (hlast : namesMember last = false)
    {z : List Char} (hz : Ends z) : ∃ ls, Piece p ls ∧ spelled ls = p.text ∧ Writes last ls z := by
  obtain ⟨head, tail, hparsed, htext, hwrites⟩ := p.readable hz last hlast
  exact ⟨head ++ tail, ⟨head, tail, rfl, hparsed⟩, htext, hwrites⟩

theorem spelled_listed_ends (pieces : List (List (Kind × List Char))) {z : List Char} (hz : Ends z) :
    Ends (spelled (listed pieces) ++ z) := by
  cases pieces with
  | nil => exact hz
  | cons ls pieces => exact .mark (c := ',') (by decide) _

theorem exists_listed_pieces (ps : List Parameter) {z : List Char} (hz : Ends z) :
    ∃ pieces, List.Forall₂ Piece ps pieces ∧
      spelled (listed pieces) = (ps.map Parameter.text).flatMap ([',', ' '] ++ ·) ∧
        ∀ last, Writes last (listed pieces) z := by
  induction ps with
  | nil => exact ⟨[], .nil, rfl, fun last => .nil last z⟩
  | cons p ps ih =>
    obtain ⟨pieces, hpieces, hspelled, hwrites⟩ := ih
    obtain ⟨ls, hls, htext, hpiece⟩ := exists_piece p (some .comma) rfl (spelled_listed_ends pieces hz)
    have hlisted : listed (((.blank, [' ']) :: ls) :: pieces) =
        (.comma, [',']) :: (.blank, [' ']) :: (ls ++ listed pieces) := rfl
    refine ⟨((.blank, [' ']) :: ls) :: pieces, .cons hls.blank hpieces, ?_, fun last => ?_⟩
    · rw [hlisted, spelled_cons, spelled_cons, spelled_append, htext, hspelled]
      rfl
    · rw [hlisted]
      refine .cons (writes_mark (by decide) _) (.cons (writes_blank ?_) (.append hpiece (hwrites _)))
      rw [spelled_append, htext]
      exact (p.inked_text.append _).append z

theorem balanced_listed {ps : List Parameter} {pieces : List (List (Kind × List Char))}
    (h : List.Forall₂ Piece ps pieces) : Balanced (kindWord ((listed pieces).map (·.1))) := by
  induction h with
  | nil => exact .nil
  | @cons p ls ps pieces hls _ ih =>
    have hlisted : (listed (ls :: pieces)).map (·.1) =
        [Kind.comma] ++ (ls.map (·.1) ++ (listed pieces).map (·.1)) := by
      simp [listed]
    rw [hlisted, kindWord_append, kindWord_append]
    exact hls.closed.balanced.append ih

/-- The lexemes between the parentheses of a function, where `z` follows. -/
structure Between (ps : List Parameter) (z : List Char) (ls : List (Kind × List Char)) : Prop where
  spelled_eq : spelled ls = commas (ps.map Parameter.text)
  balanced : Balanced (kindWord (ls.map (·.1)))
  writes : ∀ last, Writes last ((.openParen, ['(']) :: ls) (')' :: z)
  recovers : ∀ source i, Stands source i ls → List.Forall₂ (Recovers (ofSource source)) ps
    (((ofSource source).splitAtCommas i i (i + ls.length)).filterMap fun q =>
      (ofSource source).parameter? q.1 q.2)

theorem exists_between (ps : List Parameter) (z : List Char) : ∃ ls, Between ps z ls := by
  have hz : Ends (')' :: z) := .mark (by decide) z
  cases ps with
  | nil =>
    refine ⟨[], rfl, .nil, fun last => writes_openParen (castLength?_behind [] z), fun source i _ => ?_⟩
    have hnone : (ofSource source).parameter? i i = none := by
      rw [parameter?, parameterHead, if_neg (lt_irrefl i)]
      rfl
    rw [List.length_nil, Nat.add_zero, splitAtCommas, if_neg (lt_irrefl i), List.filterMap_cons, hnone]
    exact .nil
  | cons p ps =>
    obtain ⟨pieces, hpieces, hspelled, hwrites⟩ := exists_listed_pieces ps hz
    obtain ⟨ls, hls, htext, hpiece⟩ := exists_piece p (some .openParen) rfl
      (spelled_listed_ends pieces hz)
    refine ⟨ls ++ listed pieces, ?_, ?_, fun last => ?_, fun source i h => ?_⟩
    · rw [spelled_append, htext, hspelled, commas, List.map_cons, DocType.joinWith_cons]
    · rw [List.map_append, kindWord_append]
      exact hls.closed.balanced.append (balanced_listed hpieces)
    · refine .cons (writes_openParen (castLength?_eq_none ?_)) (.append hpiece (hwrites _))
      rw [spelled_append, htext, List.append_assoc]
      exact p.uncast_text _
    · exact recovers_pieces hls hpieces h rfl

/-- A function with the parameters, written on one line. -/
def declaration (ps : List Parameter) : List Char :=
  "<?php function f(".toList ++ (commas (ps.map Parameter.text) ++ ") \x7b\x7d".toList)

/-- The lexemes before the parameters. -/
def opening : List (Kind × List Char) :=
  [(.openTag, "<?php".toList), (.blank, [' ']), (.kwFunction, "function".toList), (.blank, [' ']),
    (.name, ['f'])]

/-- The lexemes behind the parameters. -/
def closing : List (Kind × List Char) :=
  [(.closeParen, [')']), (.blank, [' ']), (.openBrace, ['\x7b']), (.closeBrace, ['\x7d'])]

theorem writes_opening {z : List Char} (hz : Follows z) : Writes (some .openTag) opening.tail z := by
  have hfunction : ∀ z, Writes (some .openTag) [(.kwFunction, "function".toList)] (' ' :: z) := fun z =>
    writes_keyword (p := ("function", .kwFunction)) (by decide) (by decide) rfl (Follows.halts_blank z)
  have hname : Writes (some .kwFunction) [(.name, ['f'])] z :=
    writes_name (u := ['f']) rfl rfl hz.halts fun _ _ => hz.unnamed
  refine .cons (writes_blank (inked_of_mem (by decide))) (.cons (hfunction _) ?_)
  exact .cons (writes_blank (inked_of_mem (by decide))) hname

theorem writes_closing (last : Option Kind) : Writes last closing [] := by
  refine .cons (writes_mark (by decide) _) (.cons (writes_blank (inked_of_mem (by decide))) ?_)
  exact .cons (writes_mark (by decide) _) (writes_mark (by decide) _)

theorem run_declaration {ps : List Parameter} {ls : List (Kind × List Char)}
    (h : Between ps (spelled closing.tail) ls) : ({} : Lexer).run (declaration ps) =
      opening ++ ((.openParen, ['(']) :: ls ++ closing) := by
  have hspelled : declaration ps = spelled (opening ++ ((.openParen, ['(']) :: ls ++ closing)) := by
    have hopening : "<?php function f(".toList = spelled opening ++ ['('] := by decide
    have hclosing : ") \x7b\x7d".toList = spelled closing := by decide
    calc declaration ps
      _ = (spelled opening ++ ['(']) ++ (commas (ps.map Parameter.text) ++ spelled closing) :=
        congrArg₂ (· ++ ·) hopening (congrArg (_ ++ ·) hclosing)
      _ = spelled (opening ++ ((.openParen, ['(']) :: ls ++ closing)) := by
        simp only [spelled_append, spelled_cons, h.spelled_eq, List.append_assoc, List.cons_append,
          List.nil_append]
  have hcode : Writes (some .openTag) (opening.tail ++ ((.openParen, ['(']) :: ls ++ closing)) [] :=
    .append (writes_opening (.of_mark (c := '(') (by decide) _))
      (.append (h.writes _) (writes_closing _))
  have hreads : Reads {} (opening ++ ((.openParen, ['(']) :: ls ++ closing)) []
      ⟨.php, [], lastKind (some .openTag) (opening.tail ++ ((.openParen, ['(']) :: ls ++ closing))⟩ :=
    @Reads.cons {} _ ⟨.openTag, 5, .php⟩ "<?php".toList _ _ nofun rfl rfl (hcode [])
  have hrun := hreads.run
  have hnil : ∀ s : Lexer, s.run [] = [] := fun s => by rw [Lexer.run, if_pos rfl]
  rwa [List.append_nil, ← hspelled, hnil, List.append_nil] at hrun

theorem parameters_of_stands {ps : List Parameter} {z : List Char} {ls : List (Kind × List Char)}
    (hls : Between ps z ls) (h : Stands source 0 (opening ++ ((.openParen, ['(']) :: ls ++ closing))) :
    (ofSource source).kind? 2 = some .kwFunction ∧
      List.Forall₂ (Recovers (ofSource source)) ps ((ofSource source).parameters 2) := by
  have hfunction : Stands source 2 ((.kwFunction, "function".toList) :: _) := h.tail.tail
  have hname : Stands source 4 ((.name, ['f']) :: _) := hfunction.tail.tail
  have hrest : Stands source 5 ((.openParen, ['(']) :: (ls ++ [(.closeParen, [')'])]) ++ closing.tail) := by
    rw [List.cons_append, List.append_assoc]
    exact hname.tail
  have hopen := hrest.left
  have hbehind : Gap (ofSource source).kinds 2 4 := by
    refine ⟨by omega, fun j hj hj' heffective => ?_⟩
    obtain rfl : j = 3 := by omega
    exact Bool.false_ne_true (hfunction.tail.effectiveAt.1 heffective)
  have hparens := parens_of_named hfunction.kinds hname.kinds hbehind
    ⟨by omega, fun j hj hj' => absurd hj' (by omega)⟩ hopen.kinds (hopen.bracketPair rfl hls.balanced)
  obtain ⟨hopener, hcloser⟩ := Prod.mk.inj hparens
  refine ⟨hfunction.kind?_eq, ?_⟩
  rw [parameters, hopener, hcloser]
  exact hls.recovers source (5 + 1) hopen.tail.left

/-- A function has the parameters with which it was written, one for each and in order. -/
theorem parameters_written (ps : List Parameter) :
    let ts := ofSource (String.ofList (declaration ps))
    ts.kind? 2 = some .kwFunction ∧ List.Forall₂ (Recovers ts) ps (ts.parameters 2) := by
  obtain ⟨ls, hls⟩ := exists_between ps (spelled closing.tail)
  exact parameters_of_stands hls
    ⟨[], [], by rw [String.toList_ofList, run_declaration hls, List.nil_append, List.append_nil], rfl⟩

/-- A floating point number that ends in its point is read as an integer and an operator. -/
theorem default_int_of_trailing_point :
    let ts := ofSource "<?php function f($x = 1.) \x7b\x7d"
    ts.kind? 2 = some .kwFunction ∧
      (ts.parameters 2).map (fun q => (q.name, q.default)) = [("$x", .int)] := by
  decide +kernel

end PhpStyle.Written

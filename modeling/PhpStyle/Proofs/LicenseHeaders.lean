import PhpStyle.Proofs.InsertedComments
import PhpStyle.Proofs.ParenOwners
import PhpStyle.Proofs.UndisputedFixes

/-!
# An inserted license header is found again

The header of a file does not change from one invocation of the rule to the next (`lookUp_again`), so
that all turns of a pass, and those of the next one, ask for the same header (`Analyzer.header_of_turn`).
A pass inserts it once, behind the first tag. If the text of the header makes one comment
(`MakesComment`), the code is read as before, and the header is found where it was inserted
(`finding?_inserted`).
-/

namespace PhpStyle

open Text Lexer

namespace Rules.LicenseHeader

/-- The text is one comment, or can stand in one. -/
def MakesComment (text : String) : Prop :=
  IsComment (trimStart (trimEnd text.toList)) ∨
    ¬ startsWith "/*".toList (trimStart (trimEnd text.toList)) = true ∧ NoClose text.toList

theorem noClose_within {u v : List Char} (huv : u <:+: v) (h : NoClose v) : NoClose u := by
  obtain ⟨a, b, rfl⟩ := huv
  exact h.left.right

theorem infix_of_mem_lines {line cs : List Char} (h : line ∈ lines cs) : line <:+: cs := by
  obtain ⟨kept, hkept, rfl⟩ := List.mem_map.1 h
  have hflat := linesKeeping_flatten cs
  obtain ⟨before, after, hsplit⟩ := List.append_of_mem hkept
  rw [hsplit, List.flatten_append, List.flatten_cons] at hflat
  obtain ⟨rest, hrest⟩ := prefix_bareLine kept
  refine ⟨before.flatten, rest ++ after.flatten, ?_⟩
  rw [← hflat, List.append_assoc, ← List.append_assoc (bareLine kept), hrest]

theorem noClose_cons {c : Char} (hc : c ≠ '*') {v : List Char} (h : NoClose v) : NoClose (c :: v) := by
  refine NoClose.append (u := [c]) (.of_not_mem ?_) h fun hlast => absurd (Option.some.inj hlast) hc
  exact fun hmem => hc (List.mem_singleton.1 hmem).symm

theorem noClose_commentLine {line v : List Char} (hline : NoClose line) (hv : NoClose v) :
    NoClose (commentLine line ++ v) := by
  have hend : NoClose ('\n' :: v) := noClose_cons (by decide) hv
  have hstar : ∀ {c : Char} {w : List Char}, c ≠ '/' → NoClose (c :: w) →
      NoClose (' ' :: '*' :: c :: w) := by
    intro c w hc hw
    refine noClose_cons (by decide) (NoClose.append (u := ['*']) ?_ hw fun _ hhead => ?_)
    · rintro (_ | ⟨a, _ | ⟨b, as⟩⟩) t h <;> cases h
    · exact hc (Option.some.inj hhead)
  unfold commentLine
  split
  · exact hstar (by decide) hend
  · have htext : NoClose (trimEnd line ++ '\n' :: v) :=
      .append (noClose_within (prefix_trimEnd line).isInfix hline) hend (by simp)
    rw [List.append_assoc, List.append_assoc]
    exact hstar (by decide) (noClose_cons (by decide) htext)

theorem isComment_comment {text : String} (h : MakesComment text) :
    IsComment (comment text).toList := by
  rw [comment, String.toList_ofList]
  rcases h with h | ⟨hstart, h⟩
  · have hstart : startsWith "/*".toList (trimStart (trimEnd text.toList)) = true := by
      obtain ⟨body, -, heq⟩ := h
      rw [heq]
      rfl
    rwa [if_pos hstart]
  · rw [if_neg hstart]
    have hlines : ∀ ls : List (List Char), (∀ line ∈ ls, NoClose line) →
        NoClose (ls.flatMap commentLine ++ [' ']) := by
      intro ls hls
      induction ls with
      | nil => exact noClose_cons (by decide) .nil
      | cons line ls ih =>
        obtain ⟨hline, hls⟩ := List.forall_mem_cons.1 hls
        rw [List.flatMap_cons, List.append_assoc]
        exact noClose_commentLine hline (ih hls)
    have hbody := noClose_within (prefix_trimEnd text.toList).isInfix h
    refine ⟨'\n' :: ((lines (trimEnd text.toList)).flatMap commentLine ++ [' ']), ?_, ?_⟩
    · exact noClose_cons (by decide) (hlines _ fun line hline =>
        noClose_within (infix_of_mem_lines hline) hbody)
    · rw [List.cons_append, List.append_assoc, List.append_assoc]
      rfl

theorem refresh_of_same {cwd : Path} {memory : Memory} (h : memory.headerCwd.same cwd = true) :
    refresh cwd memory = memory :=
  if_pos h

theorem same_refresh (cwd : Path) (memory : Memory) : (refresh cwd memory).headerCwd.same cwd = true := by
  unfold refresh
  split
  · assumption
  · exact beq_self_eq_true cwd.components

/-- A second look-up finds what the first one found. -/
theorem lookUp_again (o : Options) (disk : Disk) (file : Path) (memory : Memory) :
    (lookUp o disk file (lookUp o disk file memory).2).1 = (lookUp o disk file memory).1 := by
  have hsame := same_refresh disk.cwd memory
  unfold lookUp
  cases o.text with
  | some text => rfl
  | none =>
    simp only
    generalize refresh disk.cwd memory = m at hsame ⊢
    generalize disk.cwd.join (file.parent?.getD ⟨""⟩) = dir
    cases hfind : m.headers.find? fun h => h.1.same dir with
    | some found =>
      simp only
      rw [refresh_of_same hsame, hfind]
    | none =>
      simp only
      cases hsearch : search disk o.fileNames dir with
      | error e =>
        simp only
        rw [refresh_of_same hsame, hfind]
      | ok header =>
        simp only
        have hdir : dir.same dir = true := beq_self_eq_true dir.components
        rw [refresh_of_same (by exact hsame), List.find?_cons_of_pos (by exact hdir)]

theorem no_tag_before {ts : Tokens} {i : Nat} (h : isFirstTag ts i = true) (hi : i < ts.size) :
    ∀ j < i, ts.kinds[j]? ≠ some .openTag := by
  intro j hj hkind
  rw [isFirstTag, Bool.or_eq_true, decide_eq_true_eq, Option.isNone_iff_eq_none, Tokens.findPrevious,
    Nat.min_eq_left (by omega)] at h
  rcases h with rfl | h
  · cases hj
  · refine Tokens.scanDown_eq_none h j (by omega) (by simp; omega) ?_
    rw [Tokens.getElem?_kinds, Tokens.kind?] at hkind
    obtain ⟨t, ht, hopen⟩ := Option.map_eq_some_iff.1 hkind
    rw [ht, Option.any_some, hopen]
    rfl

theorem firstTag_unique {ts : Tokens} {i j : Nat} (hi : ts.kinds[i]? = some .openTag)
    (hj : ts.kinds[j]? = some .openTag) (hfirst : isFirstTag ts i = true) (hfirst' : isFirstTag ts j = true) :
    i = j := by
  have hsize : ∀ {k}, ts.kinds[k]? = some .openTag → k < ts.size := by
    intro k hk
    obtain ⟨hlt, -⟩ := List.getElem?_eq_some_iff.1 hk
    simpa [Tokens.kinds, Tokens.size] using hlt
  rcases Nat.lt_trichotomy i j with hlt | heq | hgt
  · exact absurd hi (no_tag_before hfirst' (hsize hj) i hlt)
  · exact heq
  · exact absurd hj (no_tag_before hfirst (hsize hi) j hgt)

theorem firstTag_of_isFirstTag {source : String} {i : Nat}
    (hi : (Tokens.ofSource source).kinds[i]? = some .openTag)
    (hfirst : isFirstTag (.ofSource source) i = true) :
    ∃ u t z, source.toList = u ++ (t ++ z) ∧ FirstTag u t z ∧ i = (lead u).length := by
  have hlt : i < (Tokens.ofSource source).size := by
    obtain ⟨hlt, -⟩ := List.getElem?_eq_some_iff.1 hi
    simpa [Tokens.kinds, Tokens.size] using hlt
  have hno := no_tag_before hfirst hlt
  rw [Tokens.kinds_eq_lexemes, List.getElem?_map] at hi
  simp only [Tokens.kinds_eq_lexemes, List.getElem?_map] at hno
  obtain ⟨l, hl, hkind⟩ := Option.map_eq_some_iff.1 hi
  obtain ⟨k, t⟩ := l
  cases hkind
  obtain ⟨u, z, htext, htag⟩ := exists_firstTag hl fun j hj v hv => hno j hj (by rw [hv]; rfl)
  exact ⟨u, t, z, htext, htag⟩

theorem reworded_insertAfter {ls : List (Kind × List Char)} {i : Nat} {l : Kind × List Char}
    (h : ls[i]? = some l) (s : String) :
    reworded ls [.insertAfter i s] = ls.set i (l.1, l.2 ++ s.toList) := by
  refine List.ext_getElem? fun j => ?_
  by_cases hij : i = j
  · subst hij
    have hlt := (List.getElem?_eq_some_iff.1 h).1
    rw [getElem?_reworded, h, List.getElem?_set_self hlt, Option.map_some]
    simp [Edit.applyAt, Edit.index, Edit.apply]
  · rw [getElem?_reworded_of_not_touches (by simp [Edit.touches, Edit.index, hij]),
      List.getElem?_set_ne hij]

theorem toList_insertAfter {source : String} {u t z : List Char} (htext : source.toList = u ++ (t ++ z))
    (htag : FirstTag u t z) (header : String) :
    ((Tokens.ofSource source).edited [.insertAfter (lead u).length ("\n" ++ header ++ "\n")]).toList =
      u ++ (t ++ ('\n' :: (header.toList ++ '\n' :: z))) := by
  have hget : (lead u ++ (Kind.openTag, t) :: inside.run z)[(lead u).length]? = some (.openTag, t) := by
    rw [List.getElem?_append_right (Nat.le_refl _), Nat.sub_self, List.getElem?_cons_zero]
  have hlead : spelled (lead u) = u := by
    unfold lead
    split
    · simp_all [spelled]
    · simp [spelled]
  rw [Tokens.toList_edited (Tokens.contents_ofSource source), htext, htag.run, reworded_insertAfter hget,
    (spelled_set hget _).2, List.take_left, hlead, ← List.drop_drop, List.drop_left, List.drop_succ_cons,
    List.drop_zero, spelled_run]
  simp

theorem IsComment.trimEnd_eq {h : List Char} (hcomment : IsComment h) : trimEnd h = h := by
  obtain ⟨body, -, rfl⟩ := hcomment
  refine trimEnd_of_getLast? (c := '/') ?_ (by decide)
  rw [List.getLast?_cons_cons, ← List.cons_append, List.getLast?_append]
  rfl

/-- A header that is one comment is found where it was inserted. -/
theorem finding?_inserted {source : String} {u t z : List Char} (htag : FirstTag u t z)
    {header : String} (hcomment : IsComment header.toList)
    (htext : source.toList = u ++ (t ++ ('\n' :: (header.toList ++ '\n' :: z)))) :
    finding? (.ofSource source) (lead u).length header = none := by
  obtain ⟨ls, hls, hrun⟩ := htag.run_inserted hcomment
  rw [← htext] at hrun
  have hbefore : ∀ l ∈ lead u ++ [(Kind.openTag, t), (Kind.blank, ['\n'])], l.1 ≠ .docOpen := by
    intro l hl
    rcases List.mem_append.1 hl with hl | hl
    · unfold lead at hl
      split at hl
      · cases hl
      · rw [List.mem_singleton.1 hl]
        nofun
    · rcases List.mem_cons.1 hl with rfl | hl
      · nofun
      · rw [List.mem_singleton.1 hl]
        nofun
  have hparts : ({} : Lexer).run source.toList = lead u ++ [(Kind.openTag, t), (Kind.blank, ['\n'])] ++
      (ls ++ (Kind.blank, ['\n']) :: inside.run z) := by
    rw [hrun, List.append_assoc]
    rfl
  have hfound := commentAt?_of_run hcomment hls hparts hbefore
  rw [List.length_append, String.ofList_toList] at hfound
  change commentAt? _ ((lead u).length + 2) = _ at hfound
  -- the first token behind the tag that is no blank is the comment
  have hfirst : (Tokens.ofSource source).findNext (fun t => t.kind != .blank) ((lead u).length + 1) none =
      some ((lead u).length + 2) := by
    have hget : ∀ {k : Nat} {l : Kind × List Char},
        ((Kind.openTag, t) :: (Kind.blank, ['\n']) :: (ls ++ (Kind.blank, ['\n']) :: inside.run z))[k]? =
          some l → ∃ t, (Tokens.ofSource source).get? ((lead u).length + k) = some t ∧ t.kind = l.1 := by
      intro k l hl
      have hlexeme : (({} : Lexer).run source.toList)[(lead u).length + k]? = some l := by
        rw [hrun, List.getElem?_append_right (Nat.le_add_right _ _), Nat.add_sub_cancel_left, hl]
      obtain ⟨t, ht, hkind, -⟩ := Tokens.get?_of_lexeme hlexeme
      exact ⟨t, ht, hkind⟩
    obtain ⟨blank, hblank, hkind⟩ := hget (k := 1) rfl
    obtain ⟨t', ht', hink⟩ : ∃ t', (Tokens.ofSource source).get? ((lead u).length + 2) = some t' ∧
        t'.kind ≠ .blank := by
      obtain ⟨l, ls', rfl, hl⟩ := hls.exists_cons
      obtain ⟨t', ht', hkind⟩ := hget (k := 2) rfl
      exact ⟨t', ht', by rwa [hkind]⟩
    have hlt := Tokens.lt_size_of_get? ht'
    refine Tokens.scanUp_eq_of (by omega) (by simp; omega) (by simpa [ht'] using hink) fun k hk hk' => ?_
    obtain rfl : k = (lead u).length + 1 := by omega
    rw [hblank, Option.any_some, hkind]
    decide
  unfold finding?
  simp only [hfirst, Option.bind_some, hfound, IsComment.trimEnd_eq hcomment, String.ofList_toList, if_true]

theorem fix_of_finding? {ts : Tokens} {i : Nat} {header : String} {f : Finding} {es : List Edit}
    (h : finding? ts i header = some f) (hfix : f.fix = some es) :
    es = [.insertAfter i ("\n" ++ header ++ "\n")] := by
  unfold finding? at h
  simp only at h
  split at h
  · split at h
    · cases h
    · cases h
      cases hfix
  · cases h
    cases hfix
    rfl

/-! ### Turns -/

/-- What the rule does about the first tag, by what it finds when it looks the header up. -/
def verdict (ts : Tokens) (i : Nat) : Except RuleError (Option String) → RuleScript
  | .error e => .fail e
  | .ok none => .done
  | .ok (some header) => .ofFindings (finding? ts i header).toList

theorem process_of_first {o : Options} {site : Site} {i : Nat} (h : isFirstTag site.tokens i = true)
    (memory : Memory) : process o site i memory =
      (verdict site.tokens i (lookUp o site.disk site.file.path memory).1,
        (lookUp o site.disk site.file.path memory).2) := by
  rw [process, if_pos h]
  generalize lookUp o site.disk site.file.path memory = found
  obtain ⟨_ | _ | header, memory⟩ := found <;> rfl

theorem process_of_later {o : Options} {site : Site} {i : Nat} (h : ¬ isFirstTag site.tokens i = true)
    (memory : Memory) : process o site i memory = (.done, memory) :=
  if_neg h

/-- The header of a file, in a run of the rule alone. -/
def headerIn (o : Options) (disk : Disk) (file : Path) (run : RunState) :
    Except RuleError (Option String) :=
  (lookUp o disk file (run.memories[0]?.getD {})).1

theorem headerIn_next {o : Options} {s : Option Severity} {t : Turn}
    (hrule : t.worker.rule = (rule o).withSeverity s) (hnumber : t.worker.number = 0) :
    headerIn o t.site.disk t.site.file.path t.next.run =
      headerIn o t.site.disk t.site.file.path t.state.run := by
  have hmemory : (lookUp o t.site.disk t.site.file.path t.processed.2).1 =
      (lookUp o t.site.disk t.site.file.path t.memory).1 := by
    have hprocessed : t.processed = process o t.site t.index t.memory := by
      rw [Turn.processed, hrule]
      rfl
    rw [hprocessed]
    by_cases hfirst : isFirstTag t.site.tokens t.index = true
    · rw [process_of_first hfirst]
      exact lookUp_again ..
    · rw [process_of_later hfirst]
  rw [Turn.memory, hnumber] at hmemory
  rw [headerIn, headerIn, t.memories_next, hnumber]
  split
  · cases hmemories : t.state.run.memories with
    | nil => rfl
    | cons m ms =>
      rw [hmemories] at hmemory
      exact hmemory
  · rfl

end Rules.LicenseHeader

namespace Analyzer

open Rules.LicenseHeader

theorem worker_of_singleton {a : Analyzer} {rule : Rule} (hrules : a.rules = [rule]) {w : Worker}
    (hw : w ∈ a.workers) : w.rule = rule ∧ w.number = 0 := by
  rw [workers, Worker.ofRules, hrules] at hw
  obtain ⟨p, hp, rfl⟩ := List.mem_map.1 hw
  obtain rfl := List.mem_singleton.1 (List.mem_of_mem_filter hp)
  exact ⟨rfl, rfl⟩

variable {a : Analyzer} {disk : Disk} {o : Options} {s : Option Severity}

theorem headerIn_turns (hrules : a.rules = [(rule o).withSeverity s]) (r : Round) :
    (∀ t ∈ a.turnsOf disk r, headerIn o disk r.path t.state.run = headerIn o disk r.path r.run) ∧
      headerIn o disk r.path (a.closing disk r).run = headerIn o disk r.path r.run := by
  refine (a.turns_reach disk r).inv
    (P := fun s => headerIn o disk r.path s.run = headerIn o disk r.path r.run) (fun t ht h => ?_) rfl
  obtain ⟨hrule, hnumber⟩ := worker_of_singleton hrules (a.worker_of_mem_turnsOf disk ht)
  have hnext := headerIn_next hrule hnumber
  have hsite := Site.site_of_mem_turns ht
  rw [hsite] at hnext
  exact hnext.trans h

theorem processed_of_mem_turnsOf (hrules : a.rules = [(rule o).withSeverity s]) {r : Round} {t : Turn}
    (ht : t ∈ a.turnsOf disk r) :
    (Tokens.ofSource r.text).kinds[t.index]? = some .openTag ∧
      t.processed.1 = if isFirstTag (.ofSource r.text) t.index = true then
        verdict (.ofSource r.text) t.index (headerIn o disk r.path r.run) else .done := by
  obtain ⟨hrule, hnumber⟩ := worker_of_singleton hrules (a.worker_of_mem_turnsOf disk ht)
  have hsite := Site.site_of_mem_turns ht
  have htokens : t.site.tokens = .ofSource r.text := by rw [hsite, tokens_siteOf]
  have hheader : (lookUp o t.site.disk t.site.file.path t.memory).1 = headerIn o disk r.path r.run := by
    rw [← (headerIn_turns hrules r).1 t ht, hsite, headerIn, Turn.memory, hnumber]
    rfl
  have hprocessed : t.processed = process o t.site t.index t.memory := by
    rw [Turn.processed, hrule]
    rfl
  refine ⟨?_, ?_⟩
  · have hkind := kindIs_of_mem_turnsOf disk ht
    rw [hrule] at hkind
    obtain ⟨k, hk, hopen⟩ := Tokens.kindIs_iff.1 hkind
    rw [hk]
    simpa [Rule.withSeverity, rule, info] using hopen
  · rw [← htokens, hprocessed]
    by_cases hfirst : isFirstTag t.site.tokens t.index = true
    · rw [if_pos hfirst, process_of_first hfirst, hheader]
    · rw [if_neg hfirst, process_of_later hfirst]

theorem insertion_of_mem_committed (hrules : a.rules = [(rule o).withSeverity s]) {r : Round} {es : List Edit}
    (h : es ∈ a.committed disk r) :
    ∃ i header, (Tokens.ofSource r.text).kinds[i]? = some .openTag ∧
      isFirstTag (.ofSource r.text) i = true ∧ headerIn o disk r.path r.run = .ok (some header) ∧
      es = [.insertAfter i ("\n" ++ header ++ "\n")] := by
  obtain ⟨t, ht, hes⟩ := List.mem_flatMap.1 h
  obtain ⟨hkind, hscript⟩ := processed_of_mem_turnsOf hrules ht
  have hnothing : ¬ (t.processed.1 = .done ∨ ∃ e, t.processed.1 = .fail e) := by
    intro hnothing
    unfold Turn.committed at hes
    split at hes
    · rcases hnothing with hnothing | ⟨e, hnothing⟩ <;>
        simp [Turn.journal, Turn.ops, hnothing, ActiveRule.ops, EditBuffer.history] at hes
    · cases hes
  by_cases hfirst : isFirstTag (.ofSource r.text) t.index = true
  · rw [if_pos hfirst] at hscript
    cases hheader : headerIn o disk r.path r.run with
    | error e =>
      rw [hheader] at hscript
      exact absurd (.inr ⟨e, hscript⟩) hnothing
    | ok found =>
      rw [hheader] at hscript
      cases found with
      | none => exact absurd (.inl hscript) hnothing
      | some header =>
        obtain ⟨f, hf, hfix⟩ := t.fix_of_script hscript hes
        exact ⟨t.index, header, hkind, hfirst, rfl, fix_of_finding? (Option.mem_toList.1 hf) hfix⟩
  · rw [if_neg hfirst] at hscript
    exact absurd (.inl hscript) hnothing

theorem committed_eq_singleton (hrules : a.rules = [(rule o).withSeverity s]) {r : Round} {es : List Edit}
    (h : es ∈ a.committed disk r) : a.committed disk r = [es] := by
  obtain ⟨i, header, hi, hfirst, hheader, rfl⟩ := insertion_of_mem_committed hrules h
  have hall : ∀ es ∈ a.committed disk r, es = [.insertAfter i ("\n" ++ header ++ "\n")] := by
    intro es hes
    obtain ⟨j, header', hj, hfirst', hheader', rfl⟩ := insertion_of_mem_committed hrules hes
    obtain rfl := firstTag_unique hi hj hfirst hfirst'
    rw [hheader] at hheader'
    cases hheader'
    rfl
  have hapart := (a.refines_closing disk r).disjoint
  simp only at hapart
  generalize a.committed disk r = cs at h hall hapart
  match cs, h with
  | [c], _ => rw [hall c List.mem_cons_self]
  | c :: d :: cs, _ =>
    have hc := hall c List.mem_cons_self
    have hd := hall d (List.mem_cons_of_mem c List.mem_cons_self)
    refine absurd ?_ ((List.pairwise_cons.1 hapart).1 d List.mem_cons_self i ?_)
    · rw [hd]
      simp [Edit.touches, Edit.index]
    · rw [hc]
      simp [Edit.touches, Edit.index]

/-- A pass of the rule alone that commits anything inserts the header of the file, once. If the text
of the header makes one comment, the code stays as it was, and a further pass over the file reports
nothing. -/
theorem inserted_header_found (hrules : a.rules = [(rule o).withSeverity s]) {r : Round} {es : List Edit}
    (hes : es ∈ a.committed disk r) :
    ∃ i header, headerIn o disk r.path r.run = .ok (some header) ∧
      a.committed disk r = [[.insertAfter i ("\n" ++ header ++ "\n")]] ∧
      ∀ text, header = comment text → MakesComment text →
        (Tokens.ofSource (a.outcomeOf disk r)).code = (Tokens.ofSource r.text).code ∧
        ∀ r' : Round, r'.path = r.path → r'.text = a.outcomeOf disk r →
          r'.run = (a.closing disk r).run → (a.closing disk r').desk.violations = [] := by
  have hcommitted := committed_eq_singleton hrules hes
  obtain ⟨i, header, hi, hfirst, hheader, rfl⟩ := insertion_of_mem_committed hrules hes
  refine ⟨i, header, hheader, hcommitted, fun text hheader' htext => ?_⟩
  have hcomment : IsComment header.toList := by
    rw [hheader']
    exact isComment_comment htext
  obtain ⟨u, t, z, hsource, htag, rfl⟩ := firstTag_of_isFirstTag hi hfirst
  have houtcome : (a.outcomeOf disk r).toList =
      u ++ (t ++ ('\n' :: (header.toList ++ '\n' :: z))) := by
    rw [outcomeOf, hcommitted, List.flatten_singleton, toList_insertAfter hsource htag]
  have hfound := finding?_inserted htag hcomment houtcome
  refine ⟨?_, fun r' hpath htext' hrun => ?_⟩
  · rw [Tokens.code_ofSource, Tokens.code_ofSource, houtcome, hsource, htag.code_inserted hcomment]
  · refine violations_of_done disk fun t' ht' => ?_
    obtain ⟨hkind, hscript⟩ := processed_of_mem_turnsOf hrules ht'
    rw [hscript, htext']
    rw [htext'] at hkind
    split
    · rename_i hfirst'
      have hheader'' : headerIn o disk r'.path r'.run = .ok (some header) := by
        rw [hpath, hrun, (headerIn_turns hrules r).2, hheader]
      have hindex : t'.index = (lead u).length := by
        obtain ⟨u', tag, z', houtcome', htag', hindex⟩ := firstTag_of_isFirstTag hkind hfirst'
        rw [hindex, (htag.retail _).unique htag' (houtcome.symm.trans houtcome')]
      rw [hheader'', hindex, verdict, hfound]
      rfl
    · rfl

/-- A doc comment as the header of a file in which HTML comes first. -/
theorem doc_header_found :
    let text := "/**\n * @license MIT\n *\n * see *.md\n */\n"
    let a : Analyzer := ⟨⟨"/"⟩, [rule { text := some text }], [], {}, true, 50⟩
    let r : Round := ⟨⟨"a.php"⟩, "<p><?php\n$a = 1; ?>\n<?php\n", true, a.start, []⟩
    a.outcomeOf {} r =
        "<p><?php\n/**\n * @license MIT\n *\n * see *.md\n */\n\n$a = 1; ?>\n<?php\n" ∧
      (Tokens.ofSource (a.outcomeOf {} r)).code = (Tokens.ofSource r.text).code ∧
      ∀ r' : Round, r'.path = r.path → r'.text = a.outcomeOf {} r →
        r'.run = (a.closing {} r).run → (a.closing {} r').desk.violations = [] := by
  intro text a r
  have hmem : [Edit.insertAfter 1 "\n/**\n * @license MIT\n *\n * see *.md\n */\n"] ∈
      a.committed {} r := by decide +kernel
  obtain ⟨i, header, hheader, -, hrest⟩ := inserted_header_found (o := { text := some text })
    (s := none) rfl hmem
  have htext : MakesComment text :=
    .inl ⟨"*\n * @license MIT\n *\n * see *.md\n ".toList, by decide +kernel, by decide +kernel⟩
  refine ⟨by decide +kernel, hrest text ?_ htext⟩
  exact (Option.some.inj (Except.ok.inj hheader)).symm

/-- A header of two comments is not found again: the first of them stands in its place. -/
theorem two_comments_reported :
    let a : Analyzer := ⟨⟨"/"⟩, [rule { text := some "/* a */\n/* b */" }], [], {}, true, 50⟩
    let r : Round := ⟨⟨"a.php"⟩, "<?php\n$a = 1;\n", true, a.start, []⟩
    let r' : Round := ⟨r.path, a.outcomeOf {} r, true, (a.closing {} r).run, []⟩
    a.committed {} r = [[.insertAfter 0 "\n/* a */\n/* b */\n"]] ∧
      (a.closing {} r').desk.violations.map (·.message) =
        ["File header comment does not match the license header"] := by
  decide +kernel

end Analyzer

end PhpStyle

import PhpStyle.Proofs.Changesets
import PhpStyle.Proofs.Partition
import PhpStyle.Proofs.Turns

/-!
# What a pass commits

All that a script does to a buffer are operations of the buffer (`ActiveRule.performAll_ops`), so a
turn has a journal: the changesets that it was answered to be committed, and the edits that it left
staged. Whatever is left open at the end of a turn is dropped, so the journals of the turns of a
pass, one after the other, are a journal of the pass (`Analyzer.refines_closing`): its text is that
of the tokens with the edits of the committed changesets, and of no others.
-/

namespace PhpStyle

namespace FixScript

/-- The operations that a script performs on a buffer, in order. -/
def ops : FixScript → EditBuffer → List EditBuffer.Op
  | done, _ => []
  | fail _, _ => []
  | look next, b => (next b).ops b
  | openChangeset next, b => .openChangeset :: match b.openChangeset with
    | .ok b' => (next (.ok ())).ops b'
    | .error e => (next (.error e)).ops b
  | stage edit next, b => .stage edit :: match b.stage edit with
    | .ok b' => (next (.ok ())).ops b'
    | .error e => (next (.error e)).ops b
  | commit next, b => .commit :: match b.commit with
    | .ok (committed, b') => (next (.ok committed)).ops b'
    | .error e => (next (.error e)).ops b
  | rollback next, b => .rollback :: next.ops b.rollback

/-- The operations of a script that runs in a changeset of its own. -/
def changesetOps (fix : FixScript) (b : EditBuffer) : List EditBuffer.Op :=
  .openChangeset :: match b.openChangeset with
    | .ok opened => fix.ops opened ++ [if (fix.run opened).1.isOk then .commit else .rollback]
    | .error _ => []

end FixScript

namespace ActiveRule

variable (r : ActiveRule) (site : Site)

/-- The operations that a rule performs on a buffer, in order. -/
def ops : RuleScript → EditBuffer → List EditBuffer.Op
  | .done, _ => []
  | .fail _, _ => []
  | .look next, b => ops (next b) b
  | .report index message help next, b =>
    ops (next (r.violation? site index message help false).isSome) b
  | .fixable index message fix next, b =>
    if (r.violation? site index message none true).isSome && b.enabled then
      fix.changesetOps b ++
        ops (next (b.changeset RuleError.edit fix.run).1) (b.changeset RuleError.edit fix.run).2
    else ops (next (.ok false)) b
  | .edit fix next, b => fix.ops b ++ ops (next (fix.run b).1) (fix.run b).2

end ActiveRule

namespace EditBuffer

/-- The buffer after operations in order. -/
def performAll (b : EditBuffer) (ops : List Op) : EditBuffer :=
  ops.foldl (fun b op => (b.perform op).2) b

theorem performAll_append (b : EditBuffer) (ops ops' : List Op) :
    b.performAll (ops ++ ops') = (b.performAll ops).performAll ops' :=
  List.foldl_append

theorem performAll_cons (b : EditBuffer) (op : Op) (ops : List Op) :
    b.performAll (op :: ops) = (b.perform op).2.performAll ops := rfl

end EditBuffer

open EditBuffer

theorem FixScript.performAll_ops (fix : FixScript) (b : EditBuffer) :
    b.performAll (fix.ops b) = (fix.run b).2 := by
  induction fix generalizing b with
  | done => rfl
  | fail e => rfl
  | look next ih => exact ih b b
  | openChangeset next ih =>
    rw [ops, run, performAll_cons, perform]
    cases b.openChangeset with
    | ok b' => exact ih (.ok ()) b'
    | error e => exact ih (.error e) b
  | stage edit next ih =>
    rw [ops, run, performAll_cons, perform]
    cases b.stage edit with
    | ok b' => exact ih (.ok ()) b'
    | error e => exact ih (.error e) b
  | commit next ih =>
    rw [ops, run, performAll_cons, perform]
    cases b.commit with
    | ok p => exact ih (.ok p.1) p.2
    | error e => exact ih (.error e) b
  | rollback next ih => exact ih b.rollback

theorem FixScript.performAll_changesetOps (fix : FixScript) (b : EditBuffer) :
    b.performAll (fix.changesetOps b) = (b.changeset RuleError.edit fix.run).2 := by
  rw [changesetOps, changeset, performAll_cons, perform]
  cases b.openChangeset with
  | error e => rfl
  | ok opened =>
    simp only [performAll_append, fix.performAll_ops]
    obtain ⟨e | u, after⟩ := fix.run opened
    · rfl
    · simp only [Except.isOk, Except.toBool, if_true, performAll_cons, perform]
      cases after.commit with
      | ok p => rfl
      | error e => rfl

/-- What a script leaves of a buffer is what its operations leave. -/
theorem ActiveRule.performAll_ops (r : ActiveRule) (site : Site) (script : RuleScript) (d : Desk) :
    d.buffer.performAll (r.ops site script d.buffer) = (r.run site script d).2.buffer := by
  induction script generalizing d with
  | done => rfl
  | fail e => rfl
  | look next ih => exact ih d.buffer d
  | report index message help next ih =>
    rw [ops, run]
    cases r.violation? site index message help false with
    | none => exact ih false d
    | some v => exact ih true ⟨d.buffer, d.violations ++ [v]⟩
  | fixable index message fix next ih =>
    rw [ops, run]
    cases r.violation? site index message none true with
    | none => exact ih (.ok false) d
    | some v =>
      cases henabled : d.buffer.enabled with
      | false => exact ih (.ok false) ⟨d.buffer, d.violations ++ [v]⟩
      | true =>
        simp only [Option.isSome_some, Bool.and_self, if_true, performAll_append,
          fix.performAll_changesetOps]
        generalize d.buffer.changeset RuleError.edit fix.run = result
        obtain ⟨e | committed, b⟩ := result
        · exact ih (.error e) ⟨b, _⟩
        · exact ih (.ok committed) ⟨b, _⟩
  | edit fix next ih =>
    rw [ops, run, performAll_append, fix.performAll_ops]
    exact ih (fix.run d.buffer).1 ⟨(fix.run d.buffer).2, d.violations⟩

theorem EditBuffer.Refines.track {ts : Tokens} {enabled : Bool} {b : EditBuffer} {j : Journal}
    (h : Refines ts enabled b j) (ops : List Op) :
    Refines ts enabled (b.performAll ops) (ops.foldl EditBuffer.track (b, j)).2 := by
  induction ops generalizing b j with
  | nil => exact h
  | cons op ops ih => exact ih (h.perform op)

/-- The journal behind earlier commits. -/
def EditBuffer.Journal.behind (j : Journal) (cs : List (List Edit)) : Journal :=
  { j with committed := cs ++ j.committed }

theorem EditBuffer.Journal.record_behind (j : Journal) (cs : List (List Edit)) (op : Op)
    (answer : Except EditError Answer) :
    (j.behind cs).record op answer = (j.record op answer).behind cs := by
  cases answer with
  | error e => rfl
  | ok answer =>
    cases answer with
    | committed value =>
      cases value <;> cases op <;> simp [record, behind, closing]
    | unit => cases op <;> rfl
    | text value => cases op <;> rfl

theorem EditBuffer.track_behind (ops : List Op) (b : EditBuffer) (j : Journal)
    (cs : List (List Edit)) :
    (ops.foldl track (b, j.behind cs)).2 = (ops.foldl track (b, j)).2.behind cs := by
  induction ops generalizing b j with
  | nil => rfl
  | cons op ops ih =>
    rw [List.foldl_cons, List.foldl_cons, track, Journal.record_behind]
    exact ih _ _

/-- The text of the tokens after edits. -/
def Tokens.edited (ts : Tokens) (es : List Edit) : String :=
  String.join (ts.items.toList.zipIdx.map fun p => Edit.applyAt p.2 es p.1.content)

theorem Tokens.edited_nil (ts : Tokens) : ts.edited [] = ts.source := by
  have h : (fun p : Token × Nat => Edit.applyAt p.2 [] p.1.content) =
      (fun t : Token => t.content) ∘ Prod.fst := rfl
  rw [edited, source, h, ← List.map_map, List.zipIdx_map_fst]

theorem Tokens.source_ofSource (source : String) : (ofSource source).source = source := by
  have h : (ofSource source).unlinked.Partitions source := by
    rw [ofSource_unlinked]
    exact lex_partitions source
  exact h.of_unlinked.source_eq

theorem EditBuffer.Refines.text_eq {ts : Tokens} {enabled : Bool} {b : EditBuffer} {j : Journal}
    (h : Refines ts enabled b j) : b.text = ts.edited j.committed.flatten := by
  have hcontents : b.contents.toList =
      ts.items.toList.zipIdx.map fun p => Edit.applyAt p.2 j.committed.flatten p.1.content := by
    refine List.ext_getElem? fun i => ?_
    rw [Array.getElem?_toList, h.text, List.getElem?_map, List.getElem?_zipIdx, Nat.zero_add,
      Option.map_map, Array.getElem?_toList]
    rfl
  rw [EditBuffer.text, hcontents, Tokens.edited]

theorem EditBuffer.rollback_eq {b : EditBuffer} (h : b.staged = none) : b.rollback = b := by
  rw [rollback, ← h]

theorem ActiveRule.buffer_close (r : ActiveRule) (site : Site) (i : Nat) (d : Desk) :
    (r.close site i d).buffer = d.buffer.rollback := by
  unfold close
  split
  · rfl
  · rename_i h
    rw [EditBuffer.rollback_eq (by simpa [inChangeset] using h)]

namespace Turn

variable (t : Turn)

/-- The operations of the rule when it is invoked. -/
def ops : List EditBuffer.Op :=
  t.worker.active.ops t.site t.processed.1 t.state.desk.buffer

/-- The edits that an invocation leaves staged in an open changeset, and those of each changeset
that it was answered to be committed. -/
def journal : Journal :=
  (history t.state.desk.buffer t.ops).2

/-- The changesets that the turn committed. -/
def committed : List (List Edit) :=
  if t.taken then t.journal.committed else []

theorem buffer_next (h : t.taken = true) :
    t.next.desk.buffer = (t.state.desk.buffer.performAll t.ops).rollback := by
  rw [t.desk_next, if_pos h, ActiveRule.buffer_close]
  exact congrArg rollback (t.worker.active.performAll_ops t.site t.processed.1 t.state.desk).symm

theorem idle_next (h : t.state.desk.buffer.staged = none) : t.next.desk.buffer.staged = none := by
  cases htaken : t.taken with
  | true => rw [t.buffer_next htaken]; rfl
  | false => rwa [t.desk_next, htaken]

theorem refines_next {ts : Tokens} {enabled : Bool} {cs : List (List Edit)}
    (h : Refines ts enabled t.state.desk.buffer ⟨[], cs⟩) :
    Refines ts enabled t.next.desk.buffer ⟨[], cs ++ t.committed⟩ := by
  unfold committed
  cases htaken : t.taken with
  | true =>
    rw [t.buffer_next htaken]
    have hbehind : (⟨[], cs⟩ : Journal) = ({} : Journal).behind cs := by simp [Journal.behind]
    rw [hbehind] at h
    have hops := (h.track t.ops).close (t.state.desk.buffer.performAll t.ops).conflicts []
    rwa [track_behind] at hops
  | false =>
    rw [t.desk_next, htaken]
    simpa using h

end Turn

theorem PassState.Reaches.refines {s s' : PassState} {turns : List Turn} (hreach : s.Reaches turns s')
    {ts : Tokens} {enabled : Bool} {cs : List (List Edit)}
    (h : Refines ts enabled s.desk.buffer ⟨[], cs⟩) :
    Refines ts enabled s'.desk.buffer ⟨[], cs ++ turns.flatMap Turn.committed⟩ := by
  induction hreach generalizing cs with
  | nil s => simpa using h
  | cons t _ ih =>
    have := ih (t.refines_next h)
    rwa [List.append_assoc, ← List.flatMap_cons] at this

namespace Analyzer

variable (a : Analyzer) (disk : Disk)

/-- The changesets that a pass commits. -/
def committed (r : Round) : List (List Edit) :=
  (a.turnsOf disk r).flatMap Turn.committed

/-- The text after the changesets that a pass commits. -/
def outcomeOf (r : Round) : String :=
  (Tokens.ofSource r.text).edited (a.committed disk r).flatten

theorem refines_closing (r : Round) :
    Refines (Tokens.ofSource r.text) r.fixing (a.closing disk r).desk.buffer
      ⟨[], a.committed disk r⟩ := by
  have h := (a.turns_reach disk r).refines (.ofTokens (Tokens.ofSource r.text) r.fixing)
  rwa [List.nil_append] at h

theorem commits_closing (r : Round) :
    (a.closing disk r).desk.buffer.commits = (a.committed disk r).length := by
  rw [(a.refines_closing disk r).commits]

theorem text_closing (r : Round) : (a.closing disk r).desk.buffer.text = a.outcomeOf disk r := by
  rw [(a.refines_closing disk r).text_eq, outcomeOf]

theorem idle_turnsOf (r : Round) : ∀ t ∈ a.turnsOf disk r, t.state.desk.buffer.staged = none :=
  ((a.turns_reach disk r).inv (P := fun s => s.desk.buffer.staged = none)
    (fun t _ h => t.idle_next h) rfl).1

end Analyzer

end PhpStyle

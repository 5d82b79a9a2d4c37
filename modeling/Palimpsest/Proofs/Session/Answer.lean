import Palimpsest.Proofs.Query.Refresh
import Palimpsest.Proofs.Session.World

/-!
The queries of a session answered. A file with a text has a tree, and a tree has symbols: none of the
queries is refused, and each leaves a memo that is current, be it the one of before or the one of a run.
-/

namespace Palimpsest

namespace Query
namespace Table

variable {K V : Type} [DecidableEq K]

theorem memo?_cases {t u : Table K V} {k j : K} {memo m : Memo K V}
    (hput : ∀ j, u.memo? j = if j = k then some memo else t.memo? j) (hm : u.memo? j = some m) :
    j = k ∧ m = memo ∨ j ≠ k ∧ t.memo? j = some m := by
  rw [hput] at hm
  by_cases hj : j = k
  · rw [if_pos hj] at hm
    exact .inl ⟨hj, (Option.some.inj hm).symm⟩
  · rw [if_neg hj] at hm
    exact .inr ⟨hj, hm⟩

/-- `u` is `t` with `memo` as the current memo of `k`. A value that is not new is the one of before. -/
structure Stores (t : Table K V) (k : K) (memo : Memo K V) (u : Table K V) : Prop where
  revision : u.revision = t.revision
  closed : u.accepting = false
  active : u.active = t.active
  nodup : t.keys.Nodup → u.keys.Nodup
  memo?_eq : ∀ j, u.memo? j = if j = k then some memo else t.memo? j
  verified : memo.verifiedAt = t.revision
  changed : memo.changedAt = t.revision ∨
    ∃ old, t.memo? k = some old ∧ memo.changedAt = old.changedAt ∧ memo.value = old.value

namespace Stores

variable {t u v : Table K V} {k : K} {memo : Memo K V}

theorem memo?_self (h : Stores t k memo u) : u.memo? k = some memo := by
  rw [h.memo?_eq, if_pos rfl]

theorem memo?_of_ne (h : Stores t k memo u) {j : K} (hj : j ≠ k) : u.memo? j = t.memo? j := by
  rw [h.memo?_eq, if_neg hj]

theorem hit (h : t.memo? k = some memo) (hv : memo.verifiedAt = t.revision) :
    Stores t k memo t.closeWindow.countHit where
  revision := rfl
  closed := rfl
  active := rfl
  nodup := id
  memo?_eq j := by
    by_cases hj : j = k
    · rw [if_pos hj, hj]
      exact h
    · rw [if_neg hj]
      rfl
  verified := hv
  changed := .inr ⟨memo, h, rfl, rfl⟩

theorem put {outer : List (Frame K)} {stats : Stats} (hmemos : u.memos = t.memos)
    (hrev : u.revision = t.revision) (hacc : u.accepting = false) (houter : outer = t.active)
    (hv : memo.verifiedAt = t.revision)
    (hchanged : memo.changedAt = t.revision ∨
      ∃ old, t.memo? k = some old ∧ memo.changedAt = old.changedAt ∧ memo.value = old.value) :
    Stores t k memo ({ u with active := outer, stats }.put k memo) where
  revision := hrev
  closed := hacc
  active := houter
  nodup h := by
    refine nodup_keys_put ?_ k memo
    change (u.memos.map Prod.fst).Nodup
    rw [hmemos]
    exact h
  memo?_eq j := by
    rw [memo?_put]
    congr 1
    change u.memos.lookup j = _
    rw [hmemos]
    rfl
  verified := hv
  changed := hchanged

theorem validate (hmemos : u.memos = t.memos) (hrev : u.revision = t.revision) (hacc : u.accepting = false)
    (hactive : u.active = t.active) (h : t.memo? k = some memo) :
    Stores t k { memo with verifiedAt := t.revision } (u.validate k memo) := by
  have hput : Stores t k { memo with verifiedAt := t.revision }
      ({ u with active := t.active, stats := { u.stats with validations := u.stats.validations + 1 } }.put k
        { memo with verifiedAt := t.revision }) :=
    put hmemos hrev hacc rfl rfl (.inr ⟨memo, h, rfl, rfl⟩)
  rw [← hactive, ← hrev] at hput
  rw [← hrev]
  exact hput

theorem of_alike (ha : Alike t u) (h : Stores u k memo v) : Stores t k memo v where
  revision := h.revision.trans ha.revision
  closed := h.closed
  active := h.active.trans ha.active
  nodup hn := by
    refine h.nodup ?_
    rw [keys, ha.memos]
    exact hn
  memo?_eq j := by rw [h.memo?_eq, ha.memo?]
  verified := h.verified.trans ha.revision
  changed := by
    rw [← ha.revision, ← ha.memo?]
    exact h.changed

/-- Answering for a query below another one, seen from before that one was entered. -/
theorem leave {j : K} (h : Stores (t.enter j) k memo u) :
    Stores t k memo { u with active := t.active } where
  revision := h.revision
  closed := h.closed
  active := rfl
  nodup := h.nodup
  memo?_eq := h.memo?_eq
  verified := h.verified
  changed := h.changed

end Stores
end Table
end Query

namespace Session

open Query Query.Run Query.Table

variable {t : Table Key Value} {w : World} {p : String} {text : SourceText} {source : Memo Key Value}

theorem refresh_fileText (hsource : t.memo? (.fileText p) = some source)
    (hidle : t.isActive (.fileText p) = false) (n : Nat) :
    (refresh rules (n + 1) (.fileText p)).eval ⟨t, w⟩ = (.ok source.value, ⟨t.closeWindow.countHit, w⟩) :=
  eval_refresh_current (current?_of_memo hsource (.inl rfl)) hidle n

theorem isActive_enter (t : Table Key Value) (k j : Key) : (t.enter k).isActive j = (k == j || t.isActive j) := rfl

section Parse

/-- The roots of the tree of before. -/
def oldModules : Option Value → List NodeId
  | some (.parsed parsed) => parsed.modules
  | _ => []

theorem script_parseBody_eq {t₁ : Table Key Value} {old : Option Value} {n : Nat}
    (hread : (refresh rules n (.fileText p)).eval ⟨t, w⟩ = (.ok (.text text), ⟨t₁, w⟩)) :
    (script rules (fetch rules n) (parseBody p old)).eval ⟨t, w⟩ =
      (script rules (fetch rules n) (match w.parse p text (oldModules old) with
        | .ok (parsed, w) => .change w (.yield (.parsed parsed))
        | .error e => .fail e)).eval ⟨t₁.recordRead (.fileText p), w⟩ := by
  unfold parseBody
  rw [script, eval_bind, eval_fetch, hread]
  cases old with
  | none => rfl
  | some v =>
      cases v with
      | text _ | parsed _ | symbols _ => rfl

theorem script_parseBody {t₁ : Table Key Value} {w' : World} {old : Option Value} {parsed : ParsedFile}
    {n : Nat} (hread : (refresh rules n (.fileText p)).eval ⟨t, w⟩ = (.ok (.text text), ⟨t₁, w⟩))
    (hparse : w.parse p text (oldModules old) = .ok (parsed, w')) :
    (script rules (fetch rules n) (parseBody p old)).eval ⟨t, w⟩ =
      (.ok (.parsed parsed), ⟨t₁.recordRead (.fileText p), w'⟩) := by
  rw [script_parseBody_eq hread, hparse]
  rfl

/-- The text was parsed against the tree of before. What is stored is the tree that was made, or the one of
before if readers cannot tell them apart. -/
def Reparses (t : Table Key Value) (w : World) (p : String) (text : SourceText) (memo : Memo Key Value)
    (w' : World) : Prop :=
  ∃ made, w.parse p text (oldModules ((t.memo? (.parse p)).map Memo.value)) = .ok (made, w') ∧
    (∀ parsed, memo.value = .parsed parsed → parsed.modules = made.modules) ∧
    ∀ old, t.memo? (.parse p) = some old → rules.same (.parsed made) old.value = true →
      memo.value = old.value ∧ memo.changedAt = old.changedAt

theorem execute_parse (hw : w.Sound) (hsource : t.memo? (.fileText p) = some source)
    (htext : source.value = .text text) (hidle : t.isActive (.fileText p) = false) (n : Nat) :
    ∃ parsed memo u w', (execute rules (fetch rules (n + 1)) (.parse p)).eval ⟨t, w⟩ =
        (.ok (.parsed parsed), ⟨u, w'⟩) ∧
      Stores t (.parse p) memo u ∧ memo.value = .parsed parsed ∧ memo.reads = [.fileText p] ∧
      w.Parses p text parsed w' ∧ Reparses t w p text memo w' := by
  have hread := refresh_fileText (t := t.enter (.parse p)) (w := w) hsource
    (by simpa [isActive_enter] using hidle) n
  rw [htext] at hread
  obtain ⟨parsed, w', hparse, hparses⟩ :=
    w.parse_ok hw p text (oldModules ((t.memo? (.parse p)).map Memo.value))
  have hscript : (script rules (fetch rules (n + 1)) (rules.body (.parse p)
      ((t.memo? (.parse p)).map Memo.value))).eval ⟨t.enter (.parse p), w⟩ = _ :=
    script_parseBody hread hparse
  have hentered : ((t.enter (.parse p)).closeWindow.countHit).active = ⟨.parse p, []⟩ :: t.active := rfl
  rw [recordRead_of_active hentered] at hscript
  obtain ⟨memo, stats, hrun, hverified, hreads, hchanged, hkept⟩ := eval_execute_ok hscript rfl rfl
  -- Where the value of before stays it has the same modules and reports.
  obtain ⟨result, hvalue, hmodules, hdiagnostics⟩ : ∃ result, memo.value = .parsed result ∧
      result.modules = parsed.modules ∧ result.diagnostics = parsed.diagnostics := by
    cases hchanged with
    | inl hnew => exact ⟨parsed, hnew.1, rfl, rfl⟩
    | inr hold =>
        obtain ⟨old, -, hsame, hvalue, -⟩ := hold
        cases hv : old.value with
        | text _ | symbols _ => simp [hv, rules, Value.same] at hsame
        | parsed before =>
            rw [hv] at hsame
            simp only [rules, Value.same, Bool.and_eq_true, beq_iff_eq] at hsame
            exact ⟨before, hvalue.trans hv, hsame.1.symm, hsame.2.symm⟩
  rw [hvalue] at hrun
  refine ⟨result, memo, _, w', hrun, .put (u := (t.enter (.parse p)).closeWindow.countHit) rfl rfl rfl rfl
    hverified ?_, hvalue, hreads, ?_, parsed, hparse, fun now hnow => ?_, hkept⟩
  · exact changed_of_stored hchanged
  · exact
      { sound := hparses.sound
        grows := hparses.grows
        location_eq := hparses.location_eq
        origin := hparses.origin
        answers := hmodules ▸ hparses.answers
        nodup := hmodules ▸ hparses.nodup
        diagnostics := hdiagnostics.trans hparses.diagnostics }
  · obtain rfl := Value.parsed.inj (hvalue.symm.trans hnow)
    exact hmodules

/-- Where a tree comes from: it was there, and its text has not changed, or the text was parsed. -/
inductive TreeOf (t : Table Key Value) (w : World) (p : String) (text : SourceText)
    (source memo : Memo Key Value) (parsed : ParsedFile) : World → Prop where
  | kept {old : Memo Key Value} (hold : t.memo? (.parse p) = some old) (hvalue : old.value = .parsed parsed)
      (hsource : old.verifiedAt = t.revision ∨ source.changedAt ≤ old.verifiedAt)
      (hsince : memo.changedAt = old.changedAt) : TreeOf t w p text source memo parsed w
  | parsed {w' : World} (hstale : ∀ old, t.memo? (.parse p) = some old → old.verifiedAt ≠ t.revision)
      (h : w.Parses p text parsed w') (hmade : Reparses t w p text memo w') :
      TreeOf t w p text source memo parsed w'

/-- The shape of memos: each query has values of its own kind, read from where such values come from. -/
def Fits : Key → Memo Key Value → Prop
  | .fileText _, memo => ∃ text, memo.value = .text text
  | .parse p, memo => (∃ parsed, memo.value = .parsed parsed) ∧ memo.reads = [.fileText p]
  | .moduleSymbols p, memo => (∃ entries, memo.value = .symbols entries) ∧ memo.reads = [.parse p]

theorem refresh_parse (hw : w.Sound) (hsource : t.memo? (.fileText p) = some source)
    (htext : source.value = .text text) (hfits : ∀ memo, t.memo? (.parse p) = some memo → Fits (.parse p) memo)
    (hidle : t.isActive (.fileText p) = false) (hidle' : t.isActive (.parse p) = false) (n : Nat) :
    ∃ parsed memo u w', (refresh rules (n + 2) (.parse p)).eval ⟨t, w⟩ = (.ok (.parsed parsed), ⟨u, w'⟩) ∧
      Stores t (.parse p) memo u ∧ memo.value = .parsed parsed ∧ memo.reads = [.fileText p] ∧
      TreeOf t w p text source memo parsed w' := by
  obtain ⟨parsed, memo, u, w', hexecute, hstores, hvalue, hreads, hparses, hmade⟩ :=
    execute_parse (t := t.closeWindow) hw hsource htext hidle n
  have hrun (hstale : ∀ old, t.memo? (.parse p) = some old → old.verifiedAt ≠ t.revision)
      (heq : (refresh rules (n + 2) (.parse p)).eval ⟨t, w⟩ =
        (execute rules (fetch rules (n + 1)) (.parse p)).eval ⟨t.closeWindow, w⟩) :
      ∃ parsed memo u w', (refresh rules (n + 2) (.parse p)).eval ⟨t, w⟩ = (.ok (.parsed parsed), ⟨u, w'⟩) ∧
        Stores t (.parse p) memo u ∧ memo.value = .parsed parsed ∧ memo.reads = [.fileText p] ∧
        TreeOf t w p text source memo parsed w' :=
    ⟨parsed, memo, u, w', heq.trans hexecute, hstores.of_alike (alike_closeWindow t), hvalue, hreads,
      .parsed hstale hparses hmade⟩
  cases hmemo : t.memo? (.parse p) with
  | none =>
      refine hrun (by simp [hmemo]) ?_
      rw [eval_refresh_succ, hidle', hmemo]
      rfl
  | some old =>
      obtain ⟨⟨before, hbefore⟩, hbeforeReads⟩ := hfits old hmemo
      by_cases hcurrent : old.verifiedAt = t.revision
      · refine ⟨before, old, _, w, ?_, .hit hmemo hcurrent, hbefore, hbeforeReads,
          .kept hmemo hbefore (.inl hcurrent) rfl⟩
        rw [eval_refresh_current (current?_of_memo hmemo (.inr hcurrent)) hidle', hbefore]
      · have hstale : (rules.isInput (.parse p) || old.verifiedAt == t.revision) = false := by
          simpa [rules, Key.isInput] using hcurrent
        have hread : t.closeWindow.memo? (.fileText p) = some source := hsource
        have hcheck : (areIntact rules (refresh rules (n + 1)) old.verifiedAt old.reads).eval ⟨t.closeWindow, w⟩ =
            (.ok (decide (source.changedAt ≤ old.verifiedAt)), ⟨t.closeWindow, w⟩) := by
          have hintact : t.closeWindow.isIntact old.verifiedAt (.fileText p) =
              decide (source.changedAt ≤ old.verifiedAt) := by rw [isIntact, hread]
          rw [hbeforeReads, eval_areIntact_input (by simp [hread]) rfl, hintact]
          cases decide (source.changedAt ≤ old.verifiedAt) with
          | true | false => rfl
        by_cases hle : source.changedAt ≤ old.verifiedAt
        · have hthere : t.closeWindow.memo? (.parse p) = some old := hmemo
          have hvalidate := Stores.validate (t := t) (u := t.closeWindow) rfl rfl rfl rfl hmemo
          refine ⟨before, _, _, w, ?_, hvalidate, hbefore, hbeforeReads, .kept hmemo hbefore (.inr hle) rfl⟩
          rw [eval_refresh_succ, hidle', hmemo]
          simp only [hstale, hcheck, hle, decide_true, hthere, hbefore, ite_false, Bool.false_eq_true]
        · refine hrun (by simpa [hmemo] using hcurrent) ?_
          rw [eval_refresh_succ, hidle', hmemo]
          simp only [hstale, hcheck, hle, decide_false, ite_false, Bool.false_eq_true]

end Parse

section Symbols

theorem script_moduleSymbolsBody_eq {parsed : ParsedFile} {u : Table Key Value} {w' : World} {n : Nat}
    (hread : (refresh rules n (.parse p)).eval ⟨t, w⟩ = (.ok (.parsed parsed), ⟨u, w'⟩)) :
    (script rules (fetch rules n) (moduleSymbolsBody p)).eval ⟨t, w⟩ =
      (script rules (fetch rules n) (match moduleEntries w'.forest parsed.modules with
        | .ok entries => .yield (.symbols entries)
        | .error e => .fail (.freed e))).eval ⟨u.recordRead (.parse p), w'⟩ := by
  rw [moduleSymbolsBody, script, eval_bind, eval_fetch, hread]
  rfl

/-- The body of a query for symbols runs over a tree that it reads. -/
theorem execute_moduleSymbols {parsed : ParsedFile} {u : Table Key Value} {w' : World} {n : Nat}
    (hread : (refresh rules n (.parse p)).eval ⟨t.enter (.moduleSymbols p), w⟩ = (.ok (.parsed parsed), ⟨u, w'⟩))
    (hactive : u.active = (t.enter (.moduleSymbols p)).active) (hclosed : u.accepting = false)
    (hmemo : u.memo? (.moduleSymbols p) = t.memo? (.moduleSymbols p)) (hforest : w'.forest.Built)
    (hmodules : ∀ id ∈ parsed.modules, w'.forest.contains id = true) :
    ∃ memo u', (execute rules (fetch rules n) (.moduleSymbols p)).eval ⟨t, w⟩ = (.ok memo.value, ⟨u', w'⟩) ∧
      Stores { u with active := t.active } (.moduleSymbols p) memo u' ∧
      memo.value = .symbols (entriesOf w'.forest parsed.modules) ∧ memo.reads = [.parse p] := by
  have hbody : (script rules (fetch rules n) (rules.body (.moduleSymbols p)
      ((t.memo? (.moduleSymbols p)).map Memo.value))).eval ⟨t.enter (.moduleSymbols p), w⟩ = _ :=
    script_moduleSymbolsBody_eq hread
  have hrecord := recordRead_of_active hactive (.parse p)
  rw [moduleEntries_eq hforest hmodules, hrecord] at hbody
  obtain ⟨memo, stats, hrun, hverified, hreads, hchanged, -⟩ := eval_execute_ok hbody rfl hmemo
  have hvalue : memo.value = .symbols (entriesOf w'.forest parsed.modules) := by
    cases hchanged with
    | inl hnew => exact hnew.1
    | inr hold =>
        obtain ⟨old, -, hsame, hvalue, -⟩ := hold
        cases hv : old.value with
        | text _ | parsed _ => simp [hv, rules, Value.same] at hsame
        | symbols before =>
            rw [hv] at hsame
            simp only [rules, Value.same, beq_iff_eq] at hsame
            rw [hvalue, hv, hsame]
  refine ⟨memo, _, hrun, .put rfl rfl hclosed rfl hverified ?_, hvalue, hreads⟩
  rw [← hmemo] at hchanged
  exact changed_of_stored hchanged

/-- Where the symbols of a file come from: they are current, or they are those of its current tree. -/
inductive SymbolsOf (t : Table Key Value) (w : World) (p : String) (text : SourceText)
    (source memo : Memo Key Value) (u : Table Key Value) : World → Prop where
  | kept (hmemo : t.memo? (.moduleSymbols p) = some memo) (hstores : Stores t (.moduleSymbols p) memo u) :
      SymbolsOf t w p text source memo u w
  | onTree {parsed : ParsedFile} {tree : Memo Key Value} {u₁ : Table Key Value} {w' : World}
      (htree : Stores t (.parse p) tree u₁) (hparsed : tree.value = .parsed parsed)
      (hreads : tree.reads = [.fileText p]) (hof : TreeOf t w p text source tree parsed w')
      (hstores : Stores u₁ (.moduleSymbols p) memo u)
      (hvalue : memo.value = .symbols (entriesOf w'.forest parsed.modules) ∨
        ∃ old, t.memo? (.moduleSymbols p) = some old ∧ memo.value = old.value ∧
          tree.changedAt ≤ old.verifiedAt) :
      SymbolsOf t w p text source memo u w'

theorem TreeOf.contains {memo : Memo Key Value} {parsed : ParsedFile} {w' : World} (hw : w.Sound)
    (hheld : ∀ k memo, t.memo? k = some memo → ∀ id ∈ memo.value.roots, w.forest.contains id = true)
    (h : TreeOf t w p text source memo parsed w') :
    w'.Sound ∧ ∀ id ∈ parsed.modules, w'.forest.contains id = true := by
  cases h with
  | kept hold hvalue _ _ =>
      refine ⟨hw, fun id hid => hheld _ _ hold id ?_⟩
      rw [hvalue]
      exact hid
  | parsed _ h _ => exact ⟨h.sound, h.contains⟩

theorem TreeOf.of_memos {u : Table Key Value} {memo : Memo Key Value} {parsed : ParsedFile} {w' : World}
    (h : TreeOf u w p text source memo parsed w') (hmemo : u.memo? (.parse p) = t.memo? (.parse p))
    (hrev : u.revision = t.revision) : TreeOf t w p text source memo parsed w' := by
  cases h with
  | kept hold hvalue hsource hsince => exact .kept (hmemo ▸ hold) hvalue (hrev ▸ hsource) hsince
  | parsed hstale h hmade =>
      rw [Reparses, hmemo] at hmade
      exact .parsed (by rwa [hmemo, hrev] at hstale) h hmade

theorem SymbolsOf.of_alike {u v : Table Key Value} {memo : Memo Key Value} {w' : World} (ha : Alike t u)
    (h : SymbolsOf u w p text source memo v w') : SymbolsOf t w p text source memo v w' := by
  cases h with
  | kept hmemo hstores => exact .kept ((ha.memo? _).symm.trans hmemo) (hstores.of_alike ha)
  | onTree htree hparsed hreads hof hstores hvalue =>
      refine .onTree (htree.of_alike ha) hparsed hreads (hof.of_memos (ha.memo? _) ha.revision) hstores ?_
      rwa [ha.memo?] at hvalue

/-- The symbols are made again, over a tree that was brought up to date before. -/
theorem execute_refreshed {tree : Memo Key Value} {parsed : ParsedFile} (htree : t.memo? (.parse p) = some tree)
    (hcurrent : tree.verifiedAt = t.revision) (hvalue : tree.value = .parsed parsed) (hidle : t.active = [])
    (hforest : w.forest.Built) (hmodules : ∀ id ∈ parsed.modules, w.forest.contains id = true) (n : Nat) :
    ∃ memo u, (execute rules (fetch rules (n + 1)) (.moduleSymbols p)).eval ⟨t, w⟩ = (.ok memo.value, ⟨u, w⟩) ∧
      Stores t (.moduleSymbols p) memo u ∧ memo.value = .symbols (entriesOf w.forest parsed.modules) ∧
      memo.reads = [.parse p] := by
  have hthere : (t.enter (.moduleSymbols p)).memo? (.parse p) = some tree := htree
  have hactive : (t.enter (.moduleSymbols p)).isActive (.parse p) = false := by
    rw [isActive_enter]
    simp [isActive, hidle]
  have hread : (refresh rules (n + 1) (.parse p)).eval ⟨t.enter (.moduleSymbols p), w⟩ =
      (.ok tree.value, ⟨(t.enter (.moduleSymbols p)).closeWindow.countHit, w⟩) :=
    eval_refresh_current (current?_of_memo hthere (.inr hcurrent)) hactive n
  rw [hvalue] at hread
  obtain ⟨memo, u, hexecute, hstores, hsymbols, hreads⟩ := execute_moduleSymbols hread rfl rfl rfl hforest hmodules
  have halike : Alike t { (t.enter (.moduleSymbols p)).closeWindow.countHit with active := t.active } :=
    ⟨rfl, rfl, rfl⟩
  exact ⟨memo, u, hexecute, hstores.of_alike halike, hsymbols, hreads⟩

variable (hw : w.Sound) (hsource : t.memo? (.fileText p) = some source) (htext : source.value = .text text)
  (hfits : ∀ k memo, t.memo? k = some memo → Fits k memo)
  (hheld : ∀ k memo, t.memo? k = some memo → ∀ id ∈ memo.value.roots, w.forest.contains id = true)
  (hidle : t.active = [])
include hw hsource htext hfits hheld hidle

theorem execute_symbols (n : Nat) :
    ∃ memo u w', (execute rules (fetch rules (n + 2)) (.moduleSymbols p)).eval ⟨t, w⟩ =
        (.ok memo.value, ⟨u, w'⟩) ∧
      memo.reads = [.parse p] ∧ SymbolsOf t w p text source memo u w' := by
  have hactive (k : Key) (hk : Key.moduleSymbols p ≠ k) : (t.enter (.moduleSymbols p)).isActive k = false := by
    rw [isActive_enter]
    simp [isActive, hidle, hk]
  obtain ⟨parsed, tree, u₁, w', hrun, hstores, hvalue, hreads, hof⟩ :=
    refresh_parse (t := t.enter (.moduleSymbols p)) hw hsource htext (hfits _)
      (hactive _ (by simp)) (hactive _ (by simp)) n
  have hof' : TreeOf t w p text source tree parsed w' := hof.of_memos rfl rfl
  obtain ⟨hsound, hmodules⟩ := hof'.contains hw hheld
  obtain ⟨memo, u, hexecute, hlast, hsymbols, hmemoReads⟩ := execute_moduleSymbols hrun hstores.active
    hstores.closed (hstores.memo?_of_ne (by simp)) hsound.coherent.toBuilt hmodules
  exact ⟨memo, u, w', hexecute, hmemoReads,
    .onTree hstores.leave hvalue hreads hof' hlast (.inl hsymbols)⟩

/-- Symbols of an earlier revision stay if the tree that they were made from is still the tree of the file. -/
theorem refresh_outdatedSymbols {old : Memo Key Value} (hmemo : t.memo? (.moduleSymbols p) = some old)
    (hreads : old.reads = [.parse p]) (hold : old.verifiedAt ≠ t.revision)
    (htree : (t.memo? (.parse p)).isSome) (n : Nat) :
    ∃ memo u w', (refresh rules (n + 3) (.moduleSymbols p)).eval ⟨t, w⟩ = (.ok memo.value, ⟨u, w'⟩) ∧
      memo.reads = [.parse p] ∧ SymbolsOf t w p text source memo u w' := by
  have hactive (k : Key) : t.isActive k = false := by simp [isActive, hidle]
  have hclosed := alike_closeWindow t
  have hstale : (rules.isInput (.moduleSymbols p) || old.verifiedAt == t.revision) = false := by
    simpa [rules, Key.isInput] using hold
  obtain ⟨parsed, tree, u₁, w', hrefresh, hstores, hvalue, htreeReads, hof⟩ :=
    refresh_parse (t := t.closeWindow) hw hsource htext (hfits _) (hactive _) (hactive _) n
  have hstores' := hstores.of_alike hclosed
  have hof' : TreeOf t w p text source tree parsed w' := hof.of_memos rfl rfl
  have hthere : u₁.memo? (.moduleSymbols p) = some old := (hstores'.memo?_of_ne (by simp)).trans hmemo
  have htree' : (t.closeWindow.memo? (.parse p)).isSome := htree
  have hcheck : (areIntact rules (refresh rules (n + 2)) old.verifiedAt old.reads).eval ⟨t.closeWindow, w⟩ =
      (.ok (decide (tree.changedAt ≤ old.verifiedAt)), ⟨u₁, w'⟩) := by
    have hintact : u₁.isIntact old.verifiedAt (.parse p) = decide (tree.changedAt ≤ old.verifiedAt) := by
      rw [isIntact, hstores.memo?_self]
    rw [hreads, eval_areIntact_derived htree' rfl hrefresh, hintact]
    cases decide (tree.changedAt ≤ old.verifiedAt) with
    | true | false => rfl
  by_cases hle : tree.changedAt ≤ old.verifiedAt
  · have hvalidate := Stores.validate (t := u₁) rfl rfl hstores.closed rfl hthere
    refine ⟨{ old with verifiedAt := u₁.revision }, _, w', ?_, hreads,
      .onTree hstores' hvalue htreeReads hof' hvalidate (.inr ⟨old, hmemo, rfl, hle⟩)⟩
    rw [eval_refresh_succ, hactive, hmemo]
    simp only [hstale, hcheck, hle, decide_true, hthere, ite_false, Bool.false_eq_true]
  · obtain ⟨hsound, hmodules⟩ := hof'.contains hw hheld
    obtain ⟨memo, u, hexecute, hlast, hsymbols, hmemoReads⟩ := execute_refreshed hstores'.memo?_self
      (hstores'.verified.trans hstores'.revision.symm) hvalue (hstores'.active.trans hidle)
      hsound.coherent.toBuilt hmodules (n + 1)
    refine ⟨memo, u, w', ?_, hmemoReads, .onTree hstores' hvalue htreeReads hof' hlast (.inl hsymbols)⟩
    rw [eval_refresh_succ, hactive, hmemo]
    simp only [hstale, hcheck, hle, decide_false, hexecute, ite_false, Bool.false_eq_true]

theorem refresh_moduleSymbols (n : Nat) :
    ∃ memo u w', (refresh rules (n + 3) (.moduleSymbols p)).eval ⟨t, w⟩ = (.ok memo.value, ⟨u, w'⟩) ∧
      memo.reads = [.parse p] ∧ SymbolsOf t w p text source memo u w' := by
  have hactive (k : Key) : t.isActive k = false := by simp [isActive, hidle]
  have hrun : (refresh rules (n + 3) (.moduleSymbols p)).eval ⟨t, w⟩ =
      (execute rules (fetch rules (n + 2)) (.moduleSymbols p)).eval ⟨t.closeWindow, w⟩ →
      ∃ memo u w', (refresh rules (n + 3) (.moduleSymbols p)).eval ⟨t, w⟩ = (.ok memo.value, ⟨u, w'⟩) ∧
        memo.reads = [.parse p] ∧ SymbolsOf t w p text source memo u w' := by
    intro heq
    obtain ⟨memo, u, w', hexecute, hreads, hof⟩ :=
      execute_symbols (t := t.closeWindow) hw hsource htext hfits hheld hidle n
    exact ⟨memo, u, w', heq.trans hexecute, hreads, hof.of_alike (alike_closeWindow t)⟩
  cases hmemo : t.memo? (.moduleSymbols p) with
  | none =>
      refine hrun ?_
      rw [eval_refresh_succ, hactive, hmemo]
      rfl
  | some old =>
      obtain ⟨-, hreads⟩ := hfits _ old hmemo
      by_cases hcurrent : old.verifiedAt = t.revision
      · refine ⟨old, _, w, ?_, hreads, .kept hmemo (.hit hmemo hcurrent)⟩
        rw [eval_refresh_current (current?_of_memo hmemo (.inr hcurrent)) (hactive _)]
      · cases htree : t.memo? (.parse p) with
        | some tree =>
            exact refresh_outdatedSymbols hw hsource htext hfits hheld hidle hmemo hreads hcurrent (by simp [htree]) n
        | none =>
            have hstale : (rules.isInput (.moduleSymbols p) || old.verifiedAt == t.revision) = false := by
              simpa [rules, Key.isInput] using hcurrent
            have hgone : t.closeWindow.memo? (.parse p) = none := htree
            refine hrun ?_
            rw [eval_refresh_succ, hactive, hmemo]
            simp [hstale, hreads, eval_areIntact_missing hgone]

end Symbols
end Session
end Palimpsest

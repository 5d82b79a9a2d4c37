import Palimpsest.Proofs.Query.Answer

/-!
Answering a query with memos comes to what evaluation from nothing comes to: the same value, or a fault of
the same cause. The proof goes along the queries under way: a body is run, or a memo checked, read by
read, and each read is answered one level further down.
-/

namespace Palimpsest
namespace Query

open Filter Run

variable {K V W E : Type} [DecidableEq K]

/-- What memos give, beside what is found from nothing. -/
inductive Agree (post : V → Prop) : Except (Fault K E) V → Except (Stop K E) V → Prop where
  | value {v : V} (h : post v) : Agree post (.ok v) (.ok v)
  | fault {f g : Fault K E} (h : f.SameCause g) : Agree post (.error f) (.error (.fault g))

namespace Table

/-- A table after `k` was answered. -/
structure Answered (rules : Rules K V W E) (inputs : K → Option V) (path : List K) (t : Table K V)
    (k : K) (t' : Table K V) (v : V) : Prop where
  sound : Sound rules inputs t'
  active : t'.active = t.active
  extended : Extends rules path t t'
  current : t'.current? rules k = some v

/-- A computation comes, with fuel enough, to what `k` is found to be from nothing. -/
def Answers (rules : Rules K V W E) (inputs : K → Option V) (t : Table K V) (w : W) (path : List K)
    (k : K) (answer : Nat → Run K V W E V) : Prop :=
  ∃ r res t', (∀ᶠ n in atTop, rules.scratch inputs n path k = some r) ∧
    (∀ᶠ n in atTop, (answer n).eval ⟨t, w⟩ = (res, ⟨t', w⟩)) ∧
    Agree (Answered rules inputs path t k t') r res

/-- Whatever is wanted below `path` is answered. -/
def Serves (rules : Rules K V W E) (inputs : K → Option V) (w : W) (path : List K) : Prop :=
  ∀ t k, Sound rules inputs t → t.accepting = false → Underway rules inputs t path →
    Wanted rules inputs t path k → Answers rules inputs t w path k fun n => refresh rules n k

variable {rules : Rules K V W E} {inputs : K → Option V} {t u : Table K V} {w : W} {path : List K}
  {k : K}

theorem Answered.left {t' : Table K V} {v : V} (h : Answered rules inputs path t k t' v) :
    Left rules path t k v t' :=
  ⟨h.sound.toOrderly, h.active, h.extended.toKeeps, h.current⟩

section Script

/-- How far a body has come that runs for `k`: what it has read is current. -/
structure Running (rules : Rules K V W E) (inputs : K → Option V) (path : List K) (k : K)
    (outer : List (Frame K)) (t : Table K V) (seen : List K) : Prop
    extends Busy rules path k outer t seen where
  sound : Sound rules inputs t
  asks : (k :: path).IsChain fun inner outer => rules.Asks inputs outer inner

/-- A body has yielded `v`, having read `reads`. -/
def Yielded (rules : Rules K V W E) (inputs : K → Option V) (path : List K) (k : K)
    (outer : List (Frame K)) (s : Script K V W E) (t : Table K V) (seen : List K) (t' : Table K V)
    (v : V) : Prop :=
  ∃ reads, Running rules inputs path k outer t' reads ∧ Extends rules (k :: path) t t' ∧
    s.Follows (t'.current? rules) seen reads v

variable {outer : List (Frame K)} {seen : List K} {s : Script K V W E}

theorem Running.underway (h : Running rules inputs path k outer t seen) :
    Underway rules inputs t (k :: path) :=
  ⟨h.waiting, h.asks⟩

theorem Running.read (h : Running rules inputs path k outer t seen) {d : K} {v : V} {t' : Table K V}
    (hd : Answered rules inputs (k :: path) t d t' v) :
    Running rules inputs path k outer (t'.recordRead d) (noteRead seen d) ∧
      Extends rules (k :: path) t (t'.recordRead d) ∧ (t'.recordRead d).current? rules d = some v := by
  have hrecord := recordRead_of_active (hd.active.trans h.active) d
  have hsame : Extends rules (k :: path) t' (t'.recordRead d) := by
    rw [hrecord]
    exact .of_memos _ rfl rfl rfl
  obtain ⟨hbusy, -⟩ := h.toBusy.read hd.left
  refine ⟨⟨hbusy, ?_, h.asks⟩, hd.extended.trans hsame, ?_⟩
  · rw [hrecord]
    exact hd.sound.of_memos rfl rfl
  · rw [hsame.current?_eq (by simp [hd.current]), hd.current]

/-- A body runs to what it comes to from nothing. -/
theorem Running.eventually_script (hs : Serves rules inputs w (k :: path)) (hreading : s.Reading)
    (hasks : ∀ d, s.Asks (rules.HasValue inputs) d → rules.Asks inputs k d)
    (h : Running rules inputs path k outer t seen) :
    ∃ r res t', (∀ᶠ n in atTop, s.answer (rules.scratch inputs n (k :: path)) = some r) ∧
      (∀ᶠ n in atTop, (script rules (fetch rules n) s).eval ⟨t, w⟩ = (res, ⟨t', w⟩)) ∧
      Agree (Yielded rules inputs path k outer s t seen t') r res := by
  induction s generalizing t seen with
  | yield v =>
      refine ⟨.ok v, .ok v, t, .of_forall fun n => rfl, .of_forall fun n => rfl, .value ?_⟩
      exact ⟨seen, h, .refl _ t, rfl, rfl⟩
  | read d next ih =>
      have hwanted : Wanted rules inputs t (k :: path) d := by
        intro o ho
        obtain rfl : k = o := by simpa using ho
        exact ⟨.inl (isActive_cons h.active), hasks d (.inl rfl)⟩
      obtain ⟨r, res, t₀, hscratch, hrefresh, hagree⟩ := hs t d h.sound h.accepting h.underway hwanted
      cases hagree with
      | fault hcause =>
          rename_i f g
          refine ⟨.error f, .error (.fault g), t₀, ?_, ?_, .fault hcause⟩
          · filter_upwards [hscratch] with n hn
            rw [Script.answer, hn]
          · filter_upwards [hrefresh] with n hn
            rw [script, eval_bind, eval_fetch, hn]
      | value hanswered =>
          rename_i v
          obtain ⟨hrunning, hext, hv⟩ := h.read hanswered
          have hvalue := Rules.hasValue_of_eventually hscratch
          obtain ⟨r, res, t', hanswer, hscript, hagree⟩ :=
            ih v (hreading v) (fun d' hd' => hasks d' (.inr ⟨v, hvalue, hd'⟩)) hrunning
          refine ⟨r, res, t', ?_, ?_, ?_⟩
          · filter_upwards [hscratch, hanswer] with n hn hanswer
            rw [Script.answer, hn]
            exact hanswer
          · filter_upwards [hrefresh, hscript] with n hn hscript
            rw [script, eval_bind, eval_fetch, hn]
            exact hscript
          · cases hagree with
            | fault hcause => exact .fault hcause
            | value hyielded =>
                obtain ⟨reads, hrunning', hext', hfollows⟩ := hyielded
                refine .value ⟨reads, hrunning', hext.trans hext', v, ?_, hfollows⟩
                rw [hext'.current?_eq (by simp [hv]), hv]
  | fail _ | peek _ _ _ | running _ _ | set _ _ _ _ | advance _ _ _ | sweep _ _ | look _ _
  | change _ _ _ => exact hreading.elim

end Script

/-- A query that is not under way yet runs its body. -/
theorem eventually_execute (hd : rules.Deterministic) (hs : Serves rules inputs w (k :: path))
    (ht : Sound rules inputs t) (hacc : t.accepting = false)
    (hp : Underway rules inputs t (k :: path)) :
    Answers rules inputs t w path k fun n => execute rules (fetch rules n) k := by
  have hinput := hp.derived k List.mem_cons_self
  have hmem : k ∉ path := (List.nodup_cons.mp hp.nodup).1
  have hbody := hd.oblivious k ((t.memo? k).map Memo.value) hinput
  have henter : Extends rules (k :: path) t (t.enter k) := .of_memos _ rfl rfl rfl
  have hrunning : Running rules inputs path k t.active (t.enter k) [] :=
    ⟨.start ht.toOrderly hacc hp.toWaiting, ht.of_memos rfl rfl, hp.asks⟩
  obtain ⟨r, res, t', hanswer, hscript, hagree⟩ :=
    hrunning.eventually_script hs (hd.reading k none hinput) fun d hasks => ⟨hinput, hasks⟩
  have hscratch : ∀ᶠ n in atTop, rules.scratch inputs n path k = some r := by
    refine eventually_succ hanswer fun n hn => ?_
    simpa [Rules.scratch, hmem, hinput] using hn
  cases hagree with
  | fault hcause =>
      rename_i f g
      refine ⟨.error f, .error (.fault g), t', hscratch, ?_, .fault hcause⟩
      filter_upwards [hscript] with n hn
      rw [eval_execute, hbody, hn]
  | value hyielded =>
      rename_i v
      obtain ⟨reads, hrunning', hext, hfollows⟩ := hyielded
      have hext₀ := henter.trans hext
      have hmemo : t'.memo? k = t.memo? k := hext₀.waiting k List.mem_cons_self
      obtain ⟨memo, stats, hleave, hverified, hreads, hchanged, -⟩ := leave_eq rules hrunning'.active v
      have hvalue : memo.value = v := by
        cases hchanged with
        | inl h => exact h.1
        | inr h =>
            obtain ⟨old, -, hsame, hold, -⟩ := h
            rw [hold, (hd.same_iff v old.value).mp hsame]
      rw [hmemo, hvalue] at hleave
      -- The table as it is when the memo is stored.
      have hbase : Extends rules (k :: path) t' { t' with active := t.active, stats } :=
        .of_memos _ rfl rfl rfl
      have hfresh : Fresh rules { t' with active := t.active, stats } k memo :=
        { derived := hinput
          pending := hrunning'.underway.pending k List.mem_cons_self
          verified := hverified
          reads := hreads ▸ hrunning'.current
          follows := by
            rw [hreads, hvalue]
            exact hfollows
          changed := changed_of_stored hchanged }
      have hsound : Sound rules inputs { t' with active := t.active, stats } :=
        hrunning'.sound.of_memos rfl rfl
      refine ⟨.ok v, .ok v, _, hscratch, ?_, .value ⟨hfresh.sound_put hsound, rfl, ?_,
        hvalue ▸ hfresh.current?_put_self⟩⟩
      · filter_upwards [hscript] with n hn
        rw [eval_execute, hbody, hn]
        simp only [hleave]
      · exact (hext₀.trans hbase).tail.trans (.put hfresh hsound hmem)

section Check

/-- How far the check of a memo has come: what was read before is current and has not changed. -/
structure Checking (rules : Rules K V W E) (inputs : K → Option V) (path : List K) (k : K)
    (memo : Memo K V) (values : K → Option V) (t : Table K V) (seen : List K) : Prop
    extends Probing rules path k memo t seen where
  sound : Sound rules inputs t
  asks : (k :: path).IsChain fun inner outer => rules.Asks inputs outer inner
  recorded : t.Recorded rules k memo values

/-- What comes of the check of a memo for `k`, from a stage of it where the body's rest is `s`. -/
inductive Checked (rules : Rules K V W E) (inputs : K → Option V) (path : List K) (k : K)
    (memo : Memo K V) (values : K → Option V) (s : Script K V W E) (t t' : Table K V) :
    Except (Stop K E) Bool → Prop where
  | intact (h : Checking rules inputs path k memo values t' memo.reads)
      (hactive : t'.active = t.active) (hext : Extends rules (k :: path) t t') :
      Checked rules inputs path k memo values s t t' (.ok true)
  | outdated (h : Checking rules inputs path k memo values t' [])
      (hactive : t'.active = t.active) (hext : Extends rules (k :: path) t t') :
      Checked rules inputs path k memo values s t t' (.ok false)
  | fault {f g : Fault K E} (hcause : f.SameCause g)
      (hanswer : ∀ᶠ n in atTop, s.answer (rules.scratch inputs n (k :: path)) = some (.error f)) :
      Checked rules inputs path k memo values s t t' (.error (.fault g))

variable {memo : Memo K V} {values : K → Option V} {seen : List K} {s : Script K V W E}

/-- A read that is current and has not changed has the value on record. -/
theorem Recorded.values_eq (h : t.Recorded rules k memo values) {d : K} (hd : d ∈ memo.reads) {v : V}
    (hv : t.current? rules d = some v) (hintact : t.isIntact memo.verifiedAt d = true) :
    values d = some v := by
  obtain ⟨read, hread, rfl, -⟩ := current?_eq_some.mp hv
  refine h.unchanged d hd read hread ?_
  simpa [isIntact, hread] using hintact

namespace Checking

theorem underway (h : Checking rules inputs path k memo values t seen) :
    Underway rules inputs t (k :: path) :=
  ⟨h.waiting, h.asks⟩

theorem forget (h : Checking rules inputs path k memo values t seen) :
    Checking rules inputs path k memo values t [] :=
  { h with toProbing := h.toProbing.forget }

theorem extend (h : Checking rules inputs path k memo values t seen) {d : K} {v : V} {t' : Table K V}
    (hd : Answered rules inputs (k :: path) t d t' v) :
    Checking rules inputs path k memo values t' seen where
  toProbing := h.toProbing.extend hd.left
  sound := hd.sound
  asks := h.asks
  recorded := hd.extended.recorded k List.mem_cons_self memo values h.holds h.recorded

theorem pass (h : Checking rules inputs path k memo values t seen) {d : K} {v : V}
    (hv : t.current? rules d = some v) (hintact : t.isIntact memo.verifiedAt d = true) :
    Checking rules inputs path k memo values t (noteRead seen d) :=
  { h with toProbing := h.toProbing.pass (by simp [hv]) hintact fun _ => Script.mem_noteRead }

theorem wanted (h : Checking rules inputs path k memo values t seen) {d : K} {rest : List K}
    (hreads : memo.reads = seen ++ d :: rest) (hd : (t.memo? d).isSome)
    (hasks : rules.Asks inputs k d) : Wanted rules inputs t (k :: path) d := by
  intro o ho
  obtain rfl : k = o := by simpa using ho
  exact ⟨h.awaited hreads hd k ho, hasks⟩

theorem eventually_scratch (h : Checking rules inputs path k memo values t seen) {d : K} {v : V}
    (hv : t.current? rules d = some v) :
    ∀ᶠ n in atTop, rules.scratch inputs n (k :: path) d = some (.ok v) :=
  h.sound.scratch_current hv h.underway.pending

end Checking

/-- A stage of a check that comes after a read of `d`. -/
theorem Checked.read {t₀ t' : Table K V} {d : K} {v : V} {next : V → Script K V W E}
    {res : Except (Stop K E) Bool}
    (h : Checked rules inputs path k memo values (next v) t₀ t' res)
    (hd : ∀ᶠ n in atTop, rules.scratch inputs n (k :: path) d = some (.ok v))
    (hactive : t₀.active = t.active) (hext : Extends rules (k :: path) t t₀) :
    Checked rules inputs path k memo values (.read d next) t t' res := by
  cases h with
  | intact h hactive' hext' => exact .intact h (hactive'.trans hactive) (hext.trans hext')
  | outdated h hactive' hext' => exact .outdated h (hactive'.trans hactive) (hext.trans hext')
  | fault hcause hanswer =>
      refine .fault hcause ?_
      filter_upwards [hd, hanswer] with n hn hanswer
      rw [Script.answer, hn]
      exact hanswer

/-- `d` is as it was when the memo was made, and the check goes on from `t₀`. -/
structure Passes (rules : Rules K V W E) (inputs : K → Option V) (path : List K) (k : K) (memo : Memo K V)
    (values : K → Option V) (seen : List K) (t t₀ : Table K V) (d : K) : Prop where
  checking : Checking rules inputs path k memo values t₀ seen
  current : (t₀.current? rules d).isSome
  intact : t₀.isIntact memo.verifiedAt d = true
  active : t₀.active = t.active
  extended : Extends rules (k :: path) t t₀

theorem Checking.passes_seen (h : Checking rules inputs path k memo values t seen) {d : K} (hd : d ∈ seen) :
    Passes rules inputs path k memo values seen t t d :=
  ⟨h, (h.intact d hd).1, (h.intact d hd).2, rfl, .refl _ t⟩

/-- One read that is checked: the check ends with it, or it has not changed. -/
theorem Checking.eventually_step (hs : Serves rules inputs w (k :: path))
    (h : Checking rules inputs path k memo values t seen) {d : K} {rest : List K}
    (hreads : memo.reads = seen ++ d :: rest) (hasks : rules.Asks inputs k d) (next : V → Script K V W E) :
    (∃ res t', (∀ᶠ n in atTop, (areIntact rules (refresh rules n) memo.verifiedAt (d :: rest)).eval ⟨t, w⟩ =
        (res, ⟨t', w⟩)) ∧
      Checked rules inputs path k memo values (.read d next) t t' res) ∨
    ∃ t₀, Passes rules inputs path k memo values seen t t₀ d ∧
      ∀ᶠ n in atTop, (areIntact rules (refresh rules n) memo.verifiedAt (d :: rest)).eval ⟨t, w⟩ =
        (areIntact rules (refresh rules n) memo.verifiedAt rest).eval ⟨t₀, w⟩ := by
  cases hmemo : t.memo? d with
  | none => exact .inl ⟨.ok false, t, .of_forall fun n => eval_areIntact_missing hmemo rest,
      .outdated h.forget rfl (.refl _ t)⟩
  | some stored =>
      have hsome : (t.memo? d).isSome := by simp [hmemo]
      cases hinput : rules.isInput d with
      | true =>
          have heval (n : Nat) :
              (areIntact rules (refresh rules n) memo.verifiedAt (d :: rest)).eval ⟨t, w⟩ =
                if t.isIntact memo.verifiedAt d then
                  (areIntact rules (refresh rules n) memo.verifiedAt rest).eval ⟨t, w⟩
                else (.ok false, ⟨t, w⟩) :=
            eval_areIntact_input hsome hinput rest
          by_cases hintact : t.isIntact memo.verifiedAt d = true
          · refine .inr ⟨t, ⟨h, ?_, hintact, rfl, .refl _ t⟩, .of_forall fun n => ?_⟩
            · rw [current?_of_memo hmemo (.inl hinput)]
              rfl
            · rw [heval, if_pos hintact]
          · refine .inl ⟨.ok false, t, .of_forall fun n => ?_, .outdated h.forget rfl (.refl _ t)⟩
            rw [heval, if_neg hintact]
      | false =>
          obtain ⟨r, res, t₀, hscratch, hrefresh, hagree⟩ := hs t d h.sound h.accepting h.underway
            (h.wanted hreads hsome hasks)
          cases hagree with
          | @fault f g hcause =>
              refine .inl ⟨.error (.fault g), t₀, ?_, .fault hcause ?_⟩
              · filter_upwards [hrefresh] with n hn
                exact eval_areIntact_error hsome hinput hn rest
              · filter_upwards [hscratch] with n hn
                rw [Script.answer, hn]
          | value hanswered =>
              have h₀ := h.extend hanswered
              by_cases hintact : t₀.isIntact memo.verifiedAt d = true
              · refine .inr ⟨t₀, ⟨h₀, ?_, hintact, hanswered.active, hanswered.extended⟩, ?_⟩
                · rw [hanswered.current]
                  rfl
                · filter_upwards [hrefresh] with n hn
                  rw [eval_areIntact_derived hsome hinput hn, if_pos hintact]
              · refine .inl ⟨.ok false, t₀, ?_, .outdated h₀.forget hanswered.active hanswered.extended⟩
                filter_upwards [hrefresh] with n hn
                rw [eval_areIntact_derived hsome hinput hn, if_neg hintact]

/-- Checking a memo shows it current or out of date, or meets a fault that its body meets too. -/
theorem Checking.eventually_check (hs : Serves rules inputs w (k :: path))
    (hasks : ∀ d, s.Asks (rules.HasValue inputs) d → rules.Asks inputs k d)
    (hfollows : s.Follows values seen memo.reads memo.value) {rest : List K}
    (hreads : memo.reads = seen ++ rest) (h : Checking rules inputs path k memo values t seen) :
    ∃ res t', (∀ᶠ n in atTop, (areIntact rules (refresh rules n) memo.verifiedAt rest).eval ⟨t, w⟩ =
        (res, ⟨t', w⟩)) ∧
      Checked rules inputs path k memo values s t t' res := by
  -- On the body, not on the list: a query is only known to be asked for while those before it are intact.
  induction s generalizing t seen rest with
  | yield v =>
      obtain rfl : rest = [] := by simpa [hfollows.1] using hreads
      obtain rfl := hfollows.1
      exact ⟨.ok true, t, .of_forall fun n => rfl, .intact h rfl (.refl _ t)⟩
  | read d next ih =>
      obtain ⟨v, hv, hfollows⟩ := hfollows
      have hd : d ∈ memo.reads := hfollows.seen_prefix.subset (Script.mem_noteRead_self seen d)
      -- What follows once `d` is known to be as it was.
      have onward {t₀ : Table K V} {rest₀ : List K} (h₀ : Passes rules inputs path k memo values seen t t₀ d)
          (hreads₀ : memo.reads = noteRead seen d ++ rest₀) :
          ∃ res t', (∀ᶠ n in atTop, (areIntact rules (refresh rules n) memo.verifiedAt rest₀).eval
              ⟨t₀, w⟩ = (res, ⟨t', w⟩)) ∧
            Checked rules inputs path k memo values (.read d next) t t' res := by
        obtain ⟨v₀, hv₀⟩ := Option.isSome_iff_exists.mp h₀.current
        obtain rfl : v = v₀ := by simpa [hv] using h₀.checking.recorded.values_eq hd hv₀ h₀.intact
        have hscratch := h₀.checking.eventually_scratch hv₀
        obtain ⟨res, t', heval, hchecked⟩ :=
          ih v (fun d' hd' => hasks d' (.inr ⟨v, Rules.hasValue_of_eventually hscratch, hd'⟩)) hfollows
            hreads₀ (h₀.checking.pass hv₀ h₀.intact)
        exact ⟨res, t', heval, hchecked.read hscratch h₀.active h₀.extended⟩
      by_cases hseen : d ∈ seen
      · exact onward (h.passes_seen hseen) (by rwa [noteRead, if_pos hseen])
      · have hnote : noteRead seen d = seen ++ [d] := by rw [noteRead, if_neg hseen]
        obtain ⟨rest', hrest'⟩ : ∃ rest', memo.reads = noteRead seen d ++ rest' :=
          hfollows.seen_prefix.imp fun _ he => he.symm
        obtain rfl : rest = d :: rest' := by simpa [hreads, hnote] using hrest'
        obtain hends | ⟨t₀, hpasses, hstep⟩ := h.eventually_step hs hreads (hasks d (.inl rfl)) next
        · exact hends
        · obtain ⟨res, t', heval, hchecked⟩ := onward hpasses hrest'
          refine ⟨res, t', ?_, hchecked⟩
          filter_upwards [hstep, heval] with n hn hrest
          exact hn.trans hrest
  | fail _ | peek _ _ _ | running _ _ | set _ _ _ _ | advance _ _ _ | sweep _ _ | look _ _
  | change _ _ _ => exact hfollows.elim

end Check

/-- A memo that was found current is marked so. -/
theorem Checking.validate {memo : Memo K V} {values : K → Option V}
    (h : Checking rules inputs path k memo values t memo.reads) :
    Answered rules inputs path t k (t.validate k memo) memo.value ∧
      ∀ᶠ n in atTop, rules.scratch inputs n path k = some (.ok memo.value) := by
  have hmem : k ∉ path := (List.nodup_cons.mp h.underway.nodup).1
  have hpending := h.underway.pending k List.mem_cons_self
  have hfollows : (rules.body k none).Follows (t.current? rules) [] memo.reads memo.value := by
    refine h.recorded.follows.congr fun d hd => ?_
    obtain ⟨hcurrent, hintact⟩ := h.intact d hd
    obtain ⟨v, hv⟩ := Option.isSome_iff_exists.mp hcurrent
    rw [hv, h.recorded.values_eq hd hv hintact]
  have hfresh : Fresh rules t k { memo with verifiedAt := t.revision } :=
    { derived := h.holds.1
      pending := hpending
      verified := rfl
      reads := fun d hd => (h.intact d hd).1
      follows := hfollows
      changed := .inr ⟨memo, h.holds.2, rfl, rfl⟩ }
  refine ⟨⟨(hfresh.sound_put h.sound).of_memos rfl rfl, rfl, ?_, hfresh.current?_put_self⟩, ?_⟩
  · exact (Extends.put hfresh h.sound hmem).trans (.of_memos _ rfl rfl rfl)
  · exact h.sound.scratch_of_follows h.holds.1 hpending hfollows hmem fun p hp =>
      h.underway.pending p (List.mem_cons_of_mem k hp)

theorem Answered.after {t₀ t' : Table K V} {v : V} (hactive : t₀.active = t.active)
    (hext : Extends rules path t t₀) (h : Answered rules inputs path t₀ k t' v) :
    Answered rules inputs path t k t' v :=
  ⟨h.sound, h.active.trans hactive, hext.trans h.extended, h.current⟩

/-- Queries below `path` that are neither current nor under way. -/
theorem eventually_compute (hd : rules.Deterministic) (hs : Serves rules inputs w (k :: path))
    (ht : Sound rules inputs t) (hacc : t.accepting = false)
    (hp : Underway rules inputs t (k :: path)) (hactive : t.isActive k = false) :
    Answers rules inputs t w path k fun n => refresh rules n k := by
  have hinput := hp.derived k List.mem_cons_self
  have hpending := hp.pending k List.mem_cons_self
  have hclosed := closeWindow_eq hacc
  cases hmemo : t.memo? k with
  | none =>
      obtain ⟨r, res, t', hscratch, hexecute, hagree⟩ := eventually_execute hd hs ht hacc hp
      refine ⟨r, res, t', hscratch, eventually_succ hexecute fun n hn => ?_, hagree⟩
      simpa [eval_refresh_succ, hactive, hmemo, hinput, hclosed] using hn
  | some memo =>
      have hholds : t.Holds rules k memo := ⟨hinput, hmemo⟩
      have hstale := hholds.current?_eq_none.mp hpending
      obtain ⟨values, hrecorded⟩ := ht.recorded k memo hholds
      have hchecking : Checking rules inputs path k memo values t [] :=
        ⟨⟨ht.toOrderly, hacc, hp.toWaiting, hholds, by simp⟩, ht, hp.asks, hrecorded⟩
      obtain ⟨res, t₀, hcheck, hchecked⟩ := hchecking.eventually_check hs
        (fun d hasks => ⟨hinput, hasks⟩) hrecorded.follows rfl
      have hmem : k ∉ path := (List.nodup_cons.mp hp.nodup).1
      cases hchecked with
      | intact h hactive' hext =>
          obtain ⟨hanswered, hscratch⟩ := h.validate
          refine ⟨.ok memo.value, .ok memo.value, _, hscratch, eventually_succ hcheck fun n hn => ?_,
            .value (hanswered.after hactive' hext.tail)⟩
          simp [eval_refresh_succ, hactive, hmemo, hinput, hstale, hclosed, hn, h.holds.2]
      | outdated h hactive' hext =>
          obtain ⟨r, res, t', hscratch, hexecute, hagree⟩ :=
            eventually_execute hd hs h.sound h.accepting h.underway
          refine ⟨r, res, t', hscratch, eventually_succ (hcheck.and hexecute) fun n hn => ?_, ?_⟩
          · simpa [eval_refresh_succ, hactive, hmemo, hinput, hstale, hclosed, hn.1] using hn.2
          · cases hagree with
            | fault hcause => exact .fault hcause
            | value hanswered => exact .value (hanswered.after hactive' hext.tail)
      | fault hcause hanswer =>
          rename_i f g
          refine ⟨.error f, .error (.fault g), t₀, ?_, ?_, .fault hcause⟩
          · refine eventually_succ hanswer fun n hn => ?_
            simpa [Rules.scratch, hmem, hinput] using hn
          · refine eventually_succ hcheck fun n hn => ?_
            simp [eval_refresh_succ, hactive, hmemo, hinput, hstale, hclosed, hn]

/-- Every query that is wanted is answered, as long as evaluation from nothing cannot go down for ever. -/
theorem serves (hd : rules.Deterministic) (hend : ¬ rules.EndlessDescent inputs) (w : W)
    (path : List K) : Serves rules inputs w path := by
  -- Longer paths first, which cannot go on for ever. How much fuel is enough is only known afterwards.
  induction Rules.acc_descends hend path with
  | intro path _ ih =>
      intro t k ht hacc hp hwanted
      have hclosed := closeWindow_eq hacc
      by_cases hmem : k ∈ path
      · obtain ⟨c, u, -, -, hrefresh⟩ := hp.eventually_cycle (w := w) ht.toOrderly hwanted.awaited hmem
        refine ⟨.error (.cycle k), _, u, ?_, hrefresh, .fault trivial⟩
        refine Rules.eventually_scratch (show rules.scratch inputs 1 path k = _ from ?_)
        simp [Rules.scratch, hmem]
      · have hactive : t.isActive k = false := by
          by_contra hact
          exact hmem (hp.active k (by simpa using hact))
        cases hcurrent : t.current? rules k with
        | some v =>
            have hext : Extends rules path t t.countHit := .of_memos _ rfl rfl rfl
            refine ⟨.ok v, .ok v, t.countHit, ht.scratch_current hcurrent hp.pending, ?_, .value
              ⟨ht.of_memos rfl rfl, rfl, hext, ?_⟩⟩
            · refine eventually_of_succ fun n => ?_
              rw [eval_refresh_current hcurrent hactive, hclosed]
            · rw [hext.current?_eq (by simp [hcurrent]), hcurrent]
        | none =>
            by_cases hinput : rules.isInput k
            · have hmemo : t.memo? k = none := by
                cases h : t.memo? k with
                | none => rfl
                | some memo => simp [current?_of_memo h (.inl hinput)] at hcurrent
              have hunset : inputs k = none := by
                rw [← ht.inputs_eq k hinput, value?, hmemo]
                rfl
              have hcause : (Fault.unset k : Fault K E).SameCause (.unset k) := rfl
              refine ⟨.error (.unset k), _, t, ?_, ?_, .fault hcause⟩
              · refine Rules.eventually_scratch (show rules.scratch inputs 1 path k = _ from ?_)
                simp [Rules.scratch, hmem, hinput, hunset]
              · refine eventually_of_succ fun n => ?_
                simp [eval_refresh_succ, hactive, hmemo, hinput, hclosed]
            · have hderived : rules.isInput k = false := by simpa using hinput
              have hp' := hp.cons hwanted hmem hderived hcurrent
              have hs := ih (k :: path) ⟨⟨k, rfl⟩, hp'.nodup, hp'.asks⟩
              exact eventually_compute hd hs ht hacc hp' hactive

end Table
end Query
end Palimpsest

import SeedTransport.Host.Trial

set_option autoImplicit false

namespace SeedTransport

/-! Rollback safety of the loader, over every run: any number of processes, each of which may
die in any file operation. -/

open Async Async.Prog

namespace Loader

variable (readHostBlob : Bytes → Option HostManifest)

/-! ### The log only grows -/

def Logged (s t : LoaderState) : Prop := s.marks <+: t.marks

theorem Logged.refl (s : LoaderState) : Logged s s := List.prefix_rfl

theorem Logged.trans (s t u : LoaderState) (h : Logged s t) (h' : Logged t u) : Logged s u :=
  List.IsPrefix.trans h h'

abbrev Logs {α : Type} (x : LoaderProg α) : Prop := x.Climbs Logged

theorem logs_pure {α : Type} (a : α) : Logs (pure a) := climbs_pure Logged.refl a

theorem logs_bind {α β : Type} {x : LoaderProg α} {f : α → LoaderProg β} (hx : Logs x)
    (hf : ∀ a, Logs (f a)) : Logs (x >>= f) := climbs_bind Logged.trans hx hf

theorem logs_attempt {α : Type} {x y : LoaderProg α} (hx : Logs x) (hy : Logs y) :
    Logs (attempt x y) := climbs_attempt Logged.trans hx hy

theorem logs_mark (m : LoaderMark) : Logs (mark m) := climbs_modify fun _ => List.prefix_append _ _

theorem logs_set (f : Loader → Loader) : Logs (set f) := climbs_modify fun _ => List.prefix_rfl

theorem logs_onFiles (f : HostFiles → HostFiles) : Logs (onFiles f) :=
  climbs_modify fun _ => List.prefix_rfl

theorem logs_self : Logs self :=
  logs_bind (climbs_get Logged.refl) fun _ => climbs_need Logged.refl _

theorem logs_removePending : Logs removePending :=
  logs_bind (climbs_turn Logged.refl _) fun _ => logs_onFiles _

theorem logs_removeTried : Logs removeTried :=
  logs_bind (climbs_turn Logged.refl _) fun _ => logs_onFiles _

theorem logs_discard : Logs discard :=
  logs_bind (logs_bind logs_removePending fun _ => logs_removeTried) fun _ => logs_set _

theorem logs_load (name : SlotName) : Logs (load readHostBlob name) := by
  refine logs_attempt (logs_bind ?_ fun raw => ?_) ?_
  · exact logs_bind (climbs_call Logged.refl _) fun _ => logs_bind (climbs_get Logged.refl) fun _ => logs_pure _
  · cases raw with
    | none => exact logs_pure _
    | some env =>
      exact logs_bind (climbs_need Logged.refl _) fun m => climbs_ite (logs_pure _) (logs_pure _)
  · exact climbs_ite (climbs_fail Logged.refl) (logs_pure _)

theorem logs_has (op : FileOp) (f : LoaderState → Bool) :
    Logs (do turn op; let s ← get; return f s : LoaderProg Bool) :=
  logs_bind (climbs_turn Logged.refl _) fun _ => logs_bind (climbs_get Logged.refl) fun _ => logs_pure _

theorem logs_choose : Logs (choose readHostBlob) := by
  refine logs_bind (logs_set _) fun _ => logs_bind logs_self fun l => ?_
  cases l.fixed with
  | some env => exact logs_pure _
  | none =>
    refine logs_bind (logs_set _) fun _ => logs_bind ?_ fun floor => logs_bind (logs_has _ _) fun there => ?_
    · exact logs_bind (logs_load readHostBlob _) fun _ => logs_bind logs_self fun _ => logs_pure _
    · have drop : Logs (do discard; return floor.env) := logs_bind logs_discard fun _ => logs_pure _
      refine climbs_ite (logs_pure _) (logs_bind (logs_has _ _) fun tried => climbs_ite drop ?_)
      refine logs_bind (logs_load readHostBlob _) fun p => ?_
      cases p with
      | none => exact drop
      | some p =>
        refine climbs_ite drop (logs_bind (logs_attempt (logs_bind ?_ fun _ => logs_pure _) (logs_pure _)) fun _ =>
          climbs_ite (logs_pure _) (logs_bind (climbs_modify fun _ => List.prefix_rfl) fun _ => logs_pure _))
        exact logs_bind (climbs_call Logged.refl _) fun _ => logs_onFiles _

theorem logs_holdsPending (p : HostSlot) : Logs (holdsPending readHostBlob p) :=
  logs_bind (logs_load readHostBlob _) fun _ => logs_pure _

theorem logs_failed : Logs (failed readHostBlob) := by
  refine logs_bind logs_self fun l => ?_
  cases l.trial with
  | none => exact logs_pure _
  | some p =>
    exact logs_bind (logs_holdsPending readHostBlob p) fun _ =>
      climbs_ite (logs_bind logs_discard fun _ => logs_pure _) (logs_bind (logs_set _) fun _ => logs_pure _)

theorem logs_ended (serving : Bool) : Logs (ended serving) := by
  refine logs_bind (logs_set _) fun _ => logs_bind logs_self fun l => logs_bind (logs_set _) fun _ => ?_
  refine climbs_ite ?_ (climbs_ite (logs_bind (logs_set _) fun _ => logs_pure _) (logs_pure _))
  exact logs_bind logs_removeTried fun _ => logs_bind (logs_set _) fun _ => logs_pure _

theorem logs_commit (gen : Nat) : Logs (commit readHostBlob gen) := by
  refine logs_bind logs_self fun l => ?_
  cases l.trial with
  | none => exact logs_pure _
  | some p =>
    refine climbs_ite (logs_pure _) (logs_bind (logs_attempt (logs_bind ?_ fun _ =>
      logs_bind (logs_mark _) fun _ => logs_pure _) (logs_pure _)) fun _ => climbs_ite (logs_pure _) ?_)
    · exact logs_bind (climbs_call Logged.refl _) fun _ => logs_onFiles _
    · refine logs_bind (logs_holdsPending readHostBlob p) fun _ => climbs_ite ?_ (logs_set _)
      exact logs_bind (logs_bind logs_removePending fun _ => logs_removeTried) fun _ => logs_set _

theorem logs_stage (env : Bytes) : Logs (stage readHostBlob env) := by
  refine logs_bind logs_self fun l => climbs_ite (climbs_fail Logged.refl) ?_
  refine logs_bind (climbs_need Logged.refl _) fun _ => logs_bind (climbs_call Logged.refl _) fun _ => ?_
  refine logs_bind (logs_bind (climbs_call Logged.refl _) fun _ => logs_onFiles _) fun _ => ?_
  refine logs_bind logs_removeTried fun _ => logs_bind (climbs_get Logged.refl) fun _ => ?_
  refine logs_bind (logs_mark _) fun _ => climbs_ite (logs_pure _) (logs_bind logs_self fun l => ?_)
  exact climbs_ite (logs_bind (logs_set _) fun _ => logs_pure _) (logs_pure _)

theorem logs_body (t : Turn) : Logs (body readHostBlob t) := by
  cases t with
  | choose =>
    refine logs_bind (logs_set _) fun _ => logs_bind (logs_choose readHostBlob) fun env => climbs_modify fun s => ?_
    split
    · exact List.prefix_rfl
    · exact List.prefix_append _ _
  | ended serving =>
    exact logs_bind (logs_mark _) fun _ => logs_bind (logs_ended serving) fun _ => logs_pure _
  | failed =>
    exact logs_bind (logs_mark _) fun _ => logs_bind (logs_failed readHostBlob) fun _ => logs_pure _
  | stage env =>
    refine logs_bind logs_self fun l => ?_
    cases l.running with
    | none => exact logs_pure _
    | some running =>
      exact climbs_ite (logs_bind (logs_stage readHostBlob env) fun _ => logs_pure _) (logs_pure _)
  | window gen =>
    refine logs_bind logs_self fun l => climbs_ite ?_ (logs_pure _)
    exact logs_bind (logs_set _) fun _ => logs_bind (logs_mark _) fun _ => logs_commit readHostBlob gen

end Loader

/-! ### Every run -/

namespace LoaderMachine

open Loader

variable {readHostBlob : Bytes → Option HostManifest}

/-- What holds between two events: a loader in a file operation may die there. -/
def Holds (C R : LoaderState → Prop) (m : LoaderMachine) : Prop :=
  match m.waiting with
  | none => R m.world
  | some (_, k) => C m.world ∧ ∀ a, (k a m.world).Sat (filing C) (fun _ => R) R

section Holds

variable {C R : LoaderState → Prop}

theorem holds_settle {out : Out LoaderState FileOp Unit Unit} (h : out.Sat (filing C) (fun _ => R) R) :
    Holds C R (settle out) := by
  cases out with
  | ret a s => exact h
  | err s => exact h
  | wait c s k => exact ⟨h.1, fun a => h.2 a s rfl⟩

theorem Holds.fileDone {m : LoaderMachine} (h : Holds C R m) (ok : Bool) :
    Holds C R (step readHostBlob m (.fileDone ok)) := by
  obtain ⟨s, w⟩ := m
  cases w with
  | none => exact h
  | some ck => exact holds_settle (h.2 _)

theorem Holds.filesDone {m : LoaderMachine} (h : Holds C R m) (oks : List Bool) :
    Holds C R ((oks.map LoaderEvent.fileDone).foldl (step readHostBlob) m) := by
  induction oks generalizing m with
  | nil => exact h
  | cons ok oks ih => exact ih (h.fileDone ok)

theorem Holds.world {m : LoaderMachine} (h : Holds C R m) (hR : ∀ s, R s → C s) : C m.world := by
  obtain ⟨s, w⟩ := m
  cases w with
  | none => exact hR s h
  | some ck => exact h.1

end Holds

theorem Holds.step {m : LoaderMachine} (h : Holds (Disk readHostBlob) (Ready readHostBlob) m)
    (e : LoaderEvent) : Holds (Disk readHostBlob) (Ready readHostBlob) (step readHostBlob m e) := by
  cases e with
  | start args mode fixed genesis =>
    exact (h.world fun _ hr => hr.disk).start args mode fixed genesis
  | turn t =>
    obtain ⟨s, w⟩ := m
    cases w with
    | some ck => exact h
    | none => exact holds_settle (wp_body h t)
  | fileDone ok => exact h.fileDone ok

theorem holds_init : Holds (Disk readHostBlob) (Ready readHostBlob) init := by
  refine ⟨⟨?_, ?_, ?_, ?_, ?_, ?_, ?_⟩, fun l hl => by simp [init] at hl⟩
  · intro env he
    simp [init] at he
  · intro e he
    simp [init] at he
  · intro env he
    simp [init] at he
  · intro m hm
    simp [init] at hm
  · intro he
    exact absurd rfl he
  · intro a b c m m' i he
    simp [init] at he
  · intro a m c he
    simp [init] at he

theorem holds_run (evs : List LoaderEvent) :
    Holds (Disk readHostBlob) (Ready readHostBlob) (run readHostBlob evs) := by
  have h : ∀ m, Holds (Disk readHostBlob) (Ready readHostBlob) m →
      Holds (Disk readHostBlob) (Ready readHostBlob) (evs.foldl (LoaderMachine.step readHostBlob) m) := by
    induction evs with
    | nil => exact fun m h => h
    | cons e evs ih => exact fun m h => ih _ (h.step e)
  exact h init holds_init

/-- What a file operation leaves to do only adds to the log. -/
def Grows (m : LoaderMachine) : Prop := ∀ op k, m.waiting = some (op, k) →
  ∀ a, (k a m.world).Climbs Logged m.world

theorem logged_settle {out : Out LoaderState FileOp Unit Unit} {s : LoaderState}
    (h : out.Climbs Logged s) : Logged s (settle out).world ∧ Grows (settle out) := by
  cases out with
  | ret a t => exact ⟨h, fun op k hw => by simp [settle] at hw⟩
  | err t => exact ⟨h, fun op k hw => by simp [settle] at hw⟩
  | wait c t k =>
    refine ⟨h.1, fun op k' hw a => ?_⟩
    obtain ⟨-, rfl⟩ := Prod.mk.inj (Option.some.inj hw)
    exact h.2 a

theorem Grows.step {m : LoaderMachine} (h : Grows m) (e : LoaderEvent) :
    Logged m.world (step readHostBlob m e).world ∧ Grows (LoaderMachine.step readHostBlob m e) := by
  obtain ⟨s, w⟩ := m
  cases e with
  | start args mode fixed genesis =>
    refine ⟨?_, fun op k hw => by simp [LoaderMachine.step] at hw⟩
    simp only [LoaderMachine.step, Loader.start]
    split
    · exact List.prefix_append _ _
    · split <;> exact List.prefix_append _ _
  | turn t =>
    cases w with
    | some ck => exact ⟨Logged.refl _, h⟩
    | none => exact logged_settle (logs_body readHostBlob t s)
  | fileDone ok =>
    cases w with
    | none => exact ⟨Logged.refl _, h⟩
    | some ck => exact logged_settle (h ck.1 ck.2 rfl _)

theorem logged_run {m : LoaderMachine} (h : Grows m) (evs : List LoaderEvent) :
    Logged m.world (evs.foldl (step readHostBlob) m).world ∧ Grows (evs.foldl (step readHostBlob) m) := by
  induction evs generalizing m with
  | nil => exact ⟨Logged.refl _, h⟩
  | cons e evs ih =>
    have hstep : Logged m.world (step readHostBlob m e).world ∧ Grows (step readHostBlob m e) :=
      h.step e
    obtain ⟨hlog, hgrow⟩ := hstep
    exact ⟨hlog.trans _ _ _ (ih hgrow).1, (ih hgrow).2⟩

theorem disk_run (evs : List LoaderEvent) : Disk readHostBlob (run readHostBlob evs).world :=
  (holds_run evs).world fun _ hr => hr.disk

/-- What was committed once is never undercut. -/
theorem committed_rises (evs evs' : List LoaderEvent) {env : Bytes}
    (h : (run readHostBlob evs).world.files.committed = some env) :
    ∃ m env' m', readHostBlob env = some m ∧
      (run readHostBlob (evs ++ evs')).world.files.committed = some env' ∧
      readHostBlob env' = some m' ∧ m.version ≤ m'.version := by
  have hgrows : Grows (run readHostBlob evs) :=
    (logged_run (m := init) (fun op k hw => by simp [init] at hw) evs).2
  have hlog : Logged (run readHostBlob evs).world
      (evs'.foldl (step readHostBlob) (run readHostBlob evs)).world := (logged_run hgrows evs').1
  have hmem := hlog.subset ((disk_run evs).committed env h).1
  have hrun : evs'.foldl (step readHostBlob) (run readHostBlob evs) = run readHostBlob (evs ++ evs') := by
    simp [run, List.foldl_append]
  rw [hrun] at hmem
  obtain ⟨env', m', m, hc, hm', hm, hle⟩ := (disk_run (evs ++ evs')).top env hmem
  exact ⟨m, env', m', hm, hc, hm', hle⟩

/-- Wherever the outcome of a trial is cut short, a successor staged meanwhile is as it was. -/
theorem spared_run (evs : List LoaderEvent) {t : Turn} (ht : Outcome t)
    (hw : (run readHostBlob evs).waiting = none) (oks : List Bool) :
    Spared (run readHostBlob evs).world
      (run readHostBlob (evs ++ .turn t :: oks.map .fileDone)).world := by
  have hready : Holds (Disk readHostBlob) (Ready readHostBlob) (run readHostBlob evs) :=
    holds_run evs
  have hrun : run readHostBlob (evs ++ .turn t :: oks.map .fileDone) =
      (oks.map LoaderEvent.fileDone).foldl (step readHostBlob)
        (step readHostBlob (run readHostBlob evs) (.turn t)) := by
    simp [run, List.foldl_append]
  rw [hrun]
  generalize run readHostBlob evs = m at hw hready ⊢
  obtain ⟨s, w⟩ := m
  obtain rfl : w = none := hw
  have hstart : Holds (Within readHostBlob s) (Settled readHostBlob s)
      (step readHostBlob ⟨s, none⟩ (.turn t)) := holds_settle (wp_outcome hready ht)
  exact ((hstart.filesDone oks).world fun _ hs => ⟨hs.1.disk, hs.2⟩).2

/-- Over any number of processes, dying anywhere: the committed version never falls, and
whatever is committed passed its trial; every boot runs the floor, or a pending blob above it
that is marked tried, or the blob of `--host`; a staging is booted once, unless that boot
ended without serving; and how a trial ends says nothing about its successor. -/
theorem rollback_safe (readHostBlob : Bytes → Option HostManifest) (evs : List LoaderEvent) :
    (∀ env, (run readHostBlob evs).world.files.committed = some env →
      .committed env ∈ (run readHostBlob evs).world.marks ∧
      ∀ evs', ∃ m env' m', readHostBlob env = some m ∧
        (run readHostBlob (evs ++ evs')).world.files.committed = some env' ∧
        readHostBlob env' = some m' ∧ m.version ≤ m'.version) ∧
    History readHostBlob (run readHostBlob evs).world.marks ∧
    Once (run readHostBlob evs).world.marks ∧
    ∀ t, Outcome t → (run readHostBlob evs).waiting = none → ∀ oks : List Bool,
      Spared (run readHostBlob evs).world
        (run readHostBlob (evs ++ .turn t :: oks.map .fileDone)).world :=
  ⟨fun env h => ⟨((disk_run evs).committed env h).1, fun evs' => committed_rises evs evs' h⟩,
    (disk_run evs).history, (disk_run evs).once, fun _ ht hw oks => spared_run evs ht hw oks⟩

/-- A blob whose one byte is its version. -/
def byteBlob : Bytes → Option HostManifest
  | [v] => some ⟨v.toNat, PLATFORM_ABI⟩
  | _ => none

/-- With `--host`, `choose` answers that blob: neither the floor nor a pending one. -/
theorem fixed_boots_itself : ∃ gen genesis files,
    .boot gen [7] none (some [7]) genesis files ∈
      (run byteBlob [.start [] .next (some [7]) [1], .turn .choose]).world.marks ∧
    (floorOf byteBlob genesis files).env ≠ [7] ∧ files.pending ≠ some [7] :=
  ⟨0, ⟨[1], 1⟩, ⟨none, none, false, 0⟩, by decide, by decide, by decide⟩

end LoaderMachine

end SeedTransport

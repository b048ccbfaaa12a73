import SeedTransport.Core.Relays

set_option autoImplicit false

namespace SeedTransport

/-! The home relay is not forgotten: its link is up or dialed, or a redial is due. -/

variable {Origin Key : Type}

/-- What holds of every `RelayConn` where no dial of a live one has failed. -/
structure RelayConn.Fit (r : RelayConn Origin Key) (closed : List Nat) : Prop where
  live : r.gone = false → r.dialing = true ∨ r.Up
  ended : r.gone = true → ¬ r.Up ∧ r.waiters = []
  dialing : r.dialing = true → r.link = none ∧ r.answered = none
  answered : ∀ id, r.answered = some id → id ≠ 0 →
    (∃ l, r.link = some l ∧ l.linkId = id) ∨ id ∈ closed

theorem RelayConn.up_iff (r : RelayConn Origin Key) :
    r.Up ↔ ∃ l, r.link = some l ∧ l.closed = false := Iff.rfl

/-- What it becomes once its link has ended. -/
def RelayConn.shut (r : RelayConn Origin Key) : RelayConn Origin Key :=
  (r.mapLink fun l => { l with closed := true }).leave

theorem RelayConn.shut_not_up (r : RelayConn Origin Key) : ¬ r.shut.Up := by
  rintro ⟨l, hl, hc⟩
  obtain ⟨l', -, rfl⟩ := Option.map_eq_some_iff.1 hl
  cases hc

theorem RelayConn.shut_of_none {r : RelayConn Origin Key} (h : r.link = none) :
    r.shut = r.leave := by
  simp [shut, mapLink, leave, h]

theorem RelayConn.Fit.mono {r : RelayConn Origin Key} {closed more : List Nat}
    (h : r.Fit closed) : r.Fit (closed ++ more) where
  live := h.live
  ended := h.ended
  dialing := h.dialing
  answered id hid h0 := (h.answered id hid h0).imp_right (List.mem_append_left _)

theorem RelayConn.Fit.shut {r : RelayConn Origin Key} {closed : List Nat} (h : r.Fit closed) :
    r.shut.Fit closed where
  live hg := by cases hg
  ended _ := ⟨r.shut_not_up, rfl⟩
  dialing hd := by
    obtain ⟨hl, ha⟩ := h.dialing hd
    exact ⟨by simp [RelayConn.shut, RelayConn.mapLink, RelayConn.leave, hl], ha⟩
  answered id hid h0 := by
    obtain ⟨l, hl, rfl⟩ | hmem := h.answered id hid h0
    · exact .inl ⟨{ l with closed := true },
        by simp [RelayConn.shut, RelayConn.mapLink, RelayConn.leave, hl], rfl⟩
    · exact .inr hmem

theorem RelayConn.Fit.mapLink {r : RelayConn Origin Key} {closed : List Nat} (h : r.Fit closed)
    {f : RelayLink → RelayLink} (hc : ∀ l, (f l).closed = l.closed)
    (hid : ∀ l, (f l).linkId = l.linkId) : (r.mapLink f).Fit closed ∧
      ((r.mapLink f).Up ↔ r.Up) := by
  have hup : (r.mapLink f).Up ↔ r.Up := by
    simp only [RelayConn.up_iff, RelayConn.mapLink, Option.map_eq_some_iff]
    constructor
    · rintro ⟨_, ⟨l, hl, rfl⟩, hlc⟩
      exact ⟨l, hl, by rwa [hc] at hlc⟩
    · rintro ⟨l, hl, hlc⟩
      exact ⟨f l, ⟨l, hl, rfl⟩, by rwa [hc]⟩
  refine ⟨⟨fun hg => ?_, fun hg => ?_, fun hd => ?_, fun id h' h0 => ?_⟩, hup⟩
  · rw [hup]
    exact h.live hg
  · rw [hup]
    exact h.ended hg
  · obtain ⟨hl, ha⟩ := h.dialing hd
    exact ⟨by simp [RelayConn.mapLink, hl], ha⟩
  · obtain ⟨l, hl, rfl⟩ | hmem := h.answered id h' h0
    · exact .inl ⟨f l, by simp [RelayConn.mapLink, hl], hid l⟩
    · exact .inr hmem

namespace Relays

variable {s : Relays Origin Key}

@[simp] theorem modify_made (s : Relays Origin Key) (c c' : Nat)
    (f : RelayConn Origin Key → RelayConn Origin Key) :
    (s.modify c f).made[c']? = if c = c' then s.made[c']?.map f else s.made[c']? := by
  by_cases h : c = c' <;> simp [modify, h]

theorem modify_shut (s : Relays Origin Key) (c : Nat) :
    (s.modify c fun r => r.mapLink fun l => { l with closed := true }).modify c .leave =
      s.modify c .shut := by
  simp only [modify, List.modify_modify_eq]
  rfl

variable [DecidableEq Origin]

/-- Where a waiter's promise stands: not settled and on its `RelayConn`'s list, or settled and
off it, once. -/
structure Waits (s : Relays Origin Key) : Prop where
  known : ∀ (c : Nat) (r : RelayConn Origin Key), s.made[c]? = some r →
    ∀ w ∈ r.waiters, s.asked[w.1]? = some c
  past : ∀ p ∈ s.settled, p.1 < s.asked.length
  once : ∀ w c : Nat, s.asked[w]? = some c → ∃ r, s.made[c]? = some r ∧
    (s.settled.map Prod.fst).count w + (r.waiters.map Prod.fst).count w = 1

/-- The map holds every live `RelayConn` under its origin, and no other. -/
structure Book (s : Relays Origin Key) : Prop where
  entry : ∀ o c, s.conns.get o = some c →
    ∃ r, s.made[c]? = some r ∧ r.gone = false ∧ r.origin = o
  only : ∀ (c : Nat) (r : RelayConn Origin Key), s.made[c]? = some r → r.gone = false →
    s.conns.get r.origin = some c
  fit : ∀ (c : Nat) (r : RelayConn Origin Key), s.made[c]? = some r → r.Fit s.netLinkClosed

/-- The home relay has its entry, or a redial is due. -/
structure Due (s : Relays Origin Key) : Prop where
  addr : s.home = s.homeAddr.map RelayAddr.origin
  due : ∀ o, s.home = some o → (s.conns.get o).isSome = true ∨ s.retryAt.isSome = true

structure Kept (s : Relays Origin Key) : Prop where
  book : s.Book
  waits : s.Waits
  due : s.Due

/-! What a `RelayConn` that goes leaves behind. -/

/-- `c` off the map, changed by `f`, its waiters told. -/
def retire (s : Relays Origin Key) (c : Nat) (r : RelayConn Origin Key)
    (f : RelayConn Origin Key → RelayConn Origin Key) : Relays Origin Key :=
  { (s.modify c f).settle c r.waiters false with conns := s.conns.delete r.origin }

theorem onGone_off {c : Nat} {r : RelayConn Origin Key} (m : Moment) (hr : s.made[c]? = some r)
    (hc : s.conns.get r.origin ≠ some c) : s.onGone m c = s := by
  simp only [onGone, hr, hc, ne_eq, not_false_eq_true, if_true]

/-- What `onGone` does to the redial: it is due where the relay was the home one. -/
theorem onGone_eq {c : Nat} {r : RelayConn Origin Key} (m : Moment) (hr : s.made[c]? = some r)
    (hc : s.conns.get r.origin = some c) :
    ∃ at' ms, s.onGone m c =
        { s with conns := s.conns.delete r.origin, retryAt := at', retryMs := ms } ∧
      (s.home = some r.origin → at'.isSome = true) ∧
      (s.home ≠ some r.origin → at' = s.retryAt) := by
  by_cases hh : s.home = some r.origin
  · simp only [onGone, hr, hc, hh, ne_eq, not_true_eq_false, if_false]
    exact ⟨_, _, rfl, fun _ => rfl, fun hn => hn.elim⟩
  · simp only [onGone, hr, hc, hh, ne_eq, not_true_eq_false, if_false, not_false_eq_true, if_true]
    exact ⟨_, _, rfl, False.elim, fun _ => rfl⟩

/-- `onLinkClosed` of a live `RelayConn` in the map. -/
theorem onLinkClosed_eq {c : Nat} {r : RelayConn Origin Key} (m : Moment)
    (hr : s.made[c]? = some r) (hg : r.gone = false) (hc : s.conns.get r.origin = some c) :
    ∃ at' ms, s.onLinkClosed m c =
        { s.retire c r .leave with retryAt := at', retryMs := ms } ∧
      (s.home = some r.origin → at'.isSome = true) ∧
      (s.home ≠ some r.origin → at' = s.retryAt) := by
  have hmade : ((s.modify c .leave).settle c r.waiters false).made[c]? = some r.leave := by
    simp [settle, modify, hr]
  obtain ⟨at', ms, he, hat⟩ := onGone_eq (s := (s.modify c .leave).settle c r.waiters false)
    m hmade hc
  refine ⟨at', ms, ?_, hat⟩
  simp only [onLinkClosed, hr, hg, Bool.false_eq_true, if_false]
  exact he

/-- Off the map it only tells its waiters. -/
theorem onLinkClosed_off {c : Nat} {r : RelayConn Origin Key} (m : Moment)
    (hr : s.made[c]? = some r) (hg : r.gone = false) (hc : s.conns.get r.origin ≠ some c) :
    s.onLinkClosed m c = (s.modify c .leave).settle c r.waiters false := by
  have hmade : ((s.modify c .leave).settle c r.waiters false).made[c]? = some r.leave := by
    simp [settle, modify, hr]
  simp only [onLinkClosed, hr, hg, Bool.false_eq_true, if_false]
  exact onGone_off m hmade hc

theorem onLinkClosed_gone {c : Nat} {r : RelayConn Origin Key} (m : Moment)
    (hr : s.made[c]? = some r) (hg : r.gone = true) : s.onLinkClosed m c = s := by
  simp only [onLinkClosed, hr, hg, if_true]

theorem linkEnd_up {c : Nat} {r : RelayConn Origin Key} (m : Moment)
    (hr : s.made[c]? = some r) (hup : r.Up) :
    s.linkEnd m c =
      (s.modify c fun r => r.mapLink fun l => { l with closed := true }).onLinkClosed m c := by
  simp only [linkEnd, hr, hup, if_true]

theorem linkEnd_down {c : Nat} {r : RelayConn Origin Key} (m : Moment)
    (hr : s.made[c]? = some r) (hup : ¬ r.Up) : s.linkEnd m c = s := by
  simp only [linkEnd, hr, hup, if_false]

/-- The end of a link that is up. -/
theorem linkEnd_eq {c : Nat} {r : RelayConn Origin Key} (m : Moment)
    (hr : s.made[c]? = some r) (hup : r.Up) (hg : r.gone = false)
    (hc : s.conns.get r.origin = some c) :
    ∃ at' ms, s.linkEnd m c = { s.retire c r .shut with retryAt := at', retryMs := ms } ∧
      (s.home = some r.origin → at'.isSome = true) ∧
      (s.home ≠ some r.origin → at' = s.retryAt) := by
  have hmade : (s.modify c fun r => r.mapLink fun l => { l with closed := true }).made[c]? =
      some (r.mapLink fun l => { l with closed := true }) := by simp [hr]
  obtain ⟨at', ms, he, hat⟩ := onLinkClosed_eq m hmade hg hc
  refine ⟨at', ms, ?_, hat⟩
  rw [linkEnd_up m hr hup, he, retire, modify_shut]
  rfl

/-- `drop` of a live `RelayConn` in the map touches no redial. -/
theorem drop_eq {c : Nat} {r : RelayConn Origin Key} (m : Moment) (hr : s.made[c]? = some r)
    (hfit : r.Fit s.netLinkClosed) (hg : r.gone = false) (hc : s.conns.get r.origin = some c) :
    s.drop m c = s.retire c r .shut := by
  let s' : Relays Origin Key := { s with conns := s.conns.delete r.origin }
  have hr' : s'.made[c]? = some r := hr
  have hoff : s'.conns.get r.origin ≠ some c := by simp [s', OrdMap.get_delete]
  have hdrop : s.drop m c = (s'.linkEnd m c).onLinkClosed m c := by
    simp only [drop, hr, hc, if_true, s']
  rw [hdrop]
  by_cases hup : r.Up
  · have hmade : (s'.modify c fun r => r.mapLink fun l => { l with closed := true }).made[c]? =
        some (r.mapLink fun l => { l with closed := true }) := by simp [s', hr]
    have hshut : ((s'.modify c .shut).settle c r.waiters false).made[c]? = some r.shut := by
      simp [s', settle, modify, hr]
    have hend : s'.linkEnd m c = (s'.modify c .shut).settle c r.waiters false := by
      rw [linkEnd_up m hr' hup, onLinkClosed_off m hmade hg hoff, modify_shut]
      rfl
    rw [hend, onLinkClosed_gone m hshut rfl]
    rfl
  · obtain ⟨hnone, -⟩ := hfit.dialing ((hfit.live hg).resolve_right hup)
    have hsame : s.made.modify c .leave = s.made.modify c .shut := by
      apply List.ext_getElem?
      intro i
      by_cases hi : c = i
      · subst hi
        simp [hr, RelayConn.shut_of_none hnone]
      · simp [hi]
    rw [linkEnd_down m hr' hup, onLinkClosed_off m hr' hg hoff]
    simp only [retire, settle, modify, s', hsame]

/-! What each of them keeps. -/

/-- A waiter is on one list only, its own. -/
theorem Waits.elsewhere (h : s.Waits) {c c' w : Nat} {r : RelayConn Origin Key}
    (hr : s.made[c]? = some r) (hw : s.asked[w]? = some c') (hne : c ≠ c') :
    (r.waiters.map Prod.fst).count w = 0 := by
  rw [List.count_eq_zero]
  intro hmem
  obtain ⟨p, hp, rfl⟩ := List.mem_map.1 hmem
  have hk := h.known c r hr p hp
  rw [hw] at hk
  exact hne (Option.some.inj hk).symm

theorem Waits.settle (h : s.Waits) {c : Nat} {r : RelayConn Origin Key}
    (hr : s.made[c]? = some r) {f : RelayConn Origin Key → RelayConn Origin Key}
    (hf : (f r).waiters = []) (up : Bool) :
    ((s.modify c f).settle c r.waiters up).Waits := by
  have hmade : ∀ c', ((s.modify c f).settle c r.waiters up).made[c']? =
      if c = c' then s.made[c']?.map f else s.made[c']? := fun c' => modify_made s c c' f
  have hfst : (r.waiters.map fun w => (w.1, up)).map Prod.fst = r.waiters.map Prod.fst := by
    simp [List.map_map, Function.comp_def]
  refine ⟨fun c' r' hr' w hw => ?_, fun p hp => ?_, fun w c' hw => ?_⟩
  · rw [hmade] at hr'
    split at hr'
    · subst c'
      rw [hr] at hr'
      cases hr'
      rw [hf] at hw
      cases hw
    · exact h.known c' r' hr' w hw
  · obtain hp | hp := List.mem_append.1 hp
    · exact h.past p hp
    · obtain ⟨w, hw, rfl⟩ := List.mem_map.1 hp
      have hk := h.known c r hr w hw
      exact (List.getElem?_eq_some_iff.1 hk).1
  · obtain ⟨r', hr', hcount⟩ := h.once w c' hw
    simp only [Relays.settle, List.map_append, List.count_append, hfst]
    by_cases hcc : c = c'
    · subst c'
      rw [hr] at hr'
      cases hr'
      refine ⟨f r, by simp [modify, hr], ?_⟩
      rw [hf]
      exact hcount
    · refine ⟨r', by simp [modify, hcc, hr'], ?_⟩
      rw [h.elsewhere hr hw hcc]
      exact hcount

theorem Waits.congr {s' : Relays Origin Key} (h : s.Waits) (hm : s'.made = s.made)
    (ha : s'.asked = s.asked) (hs : s'.settled = s.settled) : s'.Waits := by
  obtain ⟨hknown, hpast, honce⟩ := h
  constructor
  · rwa [hm, ha]
  · rwa [hs, ha]
  · rwa [hm, ha, hs]

theorem Waits.modify (h : s.Waits) (c : Nat) {f : RelayConn Origin Key → RelayConn Origin Key}
    (hf : ∀ r, (f r).waiters = r.waiters) : (s.modify c f).Waits := by
  refine ⟨fun c' r' hr' w hmem => ?_, h.past, fun w c' hasked => ?_⟩
  · rw [modify_made] at hr'
    split at hr'
    · obtain ⟨r, hr, rfl⟩ := Option.map_eq_some_iff.1 hr'
      exact h.known c' r hr w (hf r ▸ hmem)
    · exact h.known c' r' hr' w hmem
  · obtain ⟨r, hr, hcount⟩ := h.once w c' hasked
    rw [modify_made]
    split
    · exact ⟨f r, by rw [hr]; rfl, by rw [hf]; exact hcount⟩
    · exact ⟨r, hr, hcount⟩

/-- The `RelayConn` that a `ready` finds neither registered nor gone takes a waiter. -/
theorem Waits.ask (h : s.Waits) {c : Nat} {r : RelayConn Origin Key}
    (hr : s.made[c]? = some r) (caller : RelayCaller) :
    { s.modify c fun r => { r with waiters := r.waiters ++ [(s.asked.length, caller)] } with
      asked := s.asked ++ [c] }.Waits := by
  have hkeep : ∀ (w c' : Nat), s.asked[w]? = some c' → (s.asked ++ [c])[w]? = some c' := by
    intro w c' hw
    obtain ⟨hlt, -⟩ := List.getElem?_eq_some_iff.1 hw
    rwa [List.getElem?_append_left hlt]
  have hfresh : ∀ p ∈ s.settled, p.1 ≠ s.asked.length := fun p hp => (h.past p hp).ne
  refine ⟨fun c' r' hr' w hmem => ?_, fun p hp => ?_, fun w c' hasked => ?_⟩
  · simp only [modify_made] at hr'
    split at hr'
    · subst c'
      rw [hr] at hr'
      cases hr'
      obtain hmem | hmem := List.mem_append.1 hmem
      · exact hkeep _ _ (h.known c r hr w hmem)
      · rw [List.mem_singleton.1 hmem]
        simp
    · exact hkeep _ _ (h.known c' r' hr' w hmem)
  · have hlt := h.past p hp
    simp only [List.length_append, List.length_singleton]
    omega
  · change (s.asked ++ [c])[w]? = some c' at hasked
    simp only [modify_made]
    obtain hlt | hge := Nat.lt_or_ge w s.asked.length
    · rw [List.getElem?_append_left hlt] at hasked
      obtain ⟨r', hr', hcount⟩ := h.once w c' hasked
      split
      · subst c'
        rw [hr] at hr'
        cases hr'
        refine ⟨_, by rw [hr]; rfl, ?_⟩
        have hne : s.asked.length ≠ w := by omega
        simpa [Relays.modify, List.count_append, List.count_singleton, hne] using hcount
      · exact ⟨r', hr', hcount⟩
    · obtain ⟨hw, -⟩ := List.getElem?_eq_some_iff.1 hasked
      have heq : w = s.asked.length := by
        simp only [List.length_append, List.length_singleton] at hw
        omega
      subst heq
      obtain rfl : c = c' := by simpa using hasked
      have hsettled : (s.settled.map Prod.fst).count s.asked.length = 0 := by
        rw [List.count_eq_zero]
        intro hmem
        obtain ⟨p, hp, hpw⟩ := List.mem_map.1 hmem
        exact hfresh p hp hpw
      have hwaiting : (r.waiters.map Prod.fst).count s.asked.length = 0 := by
        rw [List.count_eq_zero]
        intro hmem
        obtain ⟨p, hp, hpw⟩ := List.mem_map.1 hmem
        obtain ⟨hlt, -⟩ := List.getElem?_eq_some_iff.1 (h.known c r hr p hp)
        omega
      refine ⟨_, by rw [if_pos rfl, hr]; rfl, ?_⟩
      simp [Relays.modify, List.count_append, hsettled, hwaiting]

theorem Book.congr {s' : Relays Origin Key} (h : s.Book) (hc : s'.conns = s.conns)
    (hm : s'.made = s.made) (hn : s'.netLinkClosed = s.netLinkClosed) : s'.Book := by
  obtain ⟨hentry, honly, hfit⟩ := h
  constructor
  · rwa [hc, hm]
  · rwa [hm, hc]
  · rwa [hm, hn]

theorem Book.closing (h : s.Book) (ids : List Nat) :
    { s with netLinkClosed := s.netLinkClosed ++ ids }.Book :=
  ⟨h.entry, h.only, fun c r hr => (h.fit c r hr).mono⟩

/-- A live `RelayConn` goes, off the map. -/
theorem Book.retire (h : s.Book) {c : Nat} {r : RelayConn Origin Key}
    (hr : s.made[c]? = some r) (hg : r.gone = false)
    {f : RelayConn Origin Key → RelayConn Origin Key} (hf : (f r).gone = true)
    (hfit : (f r).Fit s.netLinkClosed) : (s.retire c r f).Book := by
  have hc := h.only c r hr hg
  have hmade : ∀ c', (s.retire c r f).made[c']? =
      if c = c' then s.made[c']?.map f else s.made[c']? := fun c' => modify_made s c c' _
  refine ⟨fun o c' hc' => ?_, fun c' r' hr' hg' => ?_, fun c' r' hr' => ?_⟩
  · have hne : o ≠ r.origin := by
      rintro rfl
      simp [Relays.retire, OrdMap.get_delete] at hc'
    have hold : s.conns.get o = some c' := by
      simpa [Relays.retire, OrdMap.get_delete, hne] using hc'
    obtain ⟨r', hr', hg', ho⟩ := h.entry o c' hold
    have hcc : c ≠ c' := by
      rintro rfl
      rw [hr] at hr'
      cases hr'
      exact hne ho.symm
    exact ⟨r', by rw [hmade, if_neg hcc, hr'], hg', ho⟩
  · rw [hmade] at hr'
    split at hr'
    · subst c'
      rw [hr] at hr'
      cases hr'
      rw [hf] at hg'
      cases hg'
    · next hcc =>
      have hold := h.only c' r' hr' hg'
      have hne : r'.origin ≠ r.origin := by
        intro ho
        rw [ho, hc] at hold
        exact hcc (Option.some.inj hold)
      simpa [Relays.retire, OrdMap.get_delete, hne] using hold
  · rw [hmade] at hr'
    split at hr'
    · subst c'
      rw [hr] at hr'
      cases hr'
      exact hfit
    · exact h.fit c' r' hr'

/-- A change of one `RelayConn` that keeps its origin and its standing. -/
theorem Book.modify (h : s.Book) {c : Nat} {r : RelayConn Origin Key}
    (hr : s.made[c]? = some r) {f : RelayConn Origin Key → RelayConn Origin Key}
    (ho : (f r).origin = r.origin) (hg : (f r).gone = r.gone)
    (hfit : (f r).Fit s.netLinkClosed) : (s.modify c f).Book := by
  refine ⟨fun o c' hc' => ?_, fun c' r' hr' hg' => ?_, fun c' r' hr' => ?_⟩
  · obtain ⟨r', hr', hg', ho'⟩ := h.entry o c' hc'
    rw [modify_made]
    split
    · subst c'
      rw [hr] at hr'
      cases hr'
      exact ⟨f r, by rw [hr]; rfl, hg.trans hg', ho.trans ho'⟩
    · exact ⟨r', hr', hg', ho'⟩
  · rw [modify_made] at hr'
    split at hr'
    · subst c'
      rw [hr] at hr'
      cases hr'
      rw [ho]
      exact h.only c r hr (hg ▸ hg')
    · exact h.only c' r' hr' hg'
  · rw [modify_made] at hr'
    split at hr'
    · subst c'
      rw [hr] at hr'
      cases hr'
      exact hfit
    · exact h.fit c' r' hr'

/-- What holds of each one it may be holds after a change of one. -/
theorem Book.modify_all (h : s.Book) (c : Nat) {f : RelayConn Origin Key → RelayConn Origin Key}
    (hf : ∀ r : RelayConn Origin Key, r.Fit s.netLinkClosed →
      (f r).origin = r.origin ∧ (f r).gone = r.gone ∧ (f r).Fit s.netLinkClosed) :
    (s.modify c f).Book := by
  cases hr : s.made[c]? with
  | none =>
    have hm : s.made.modify c f = s.made :=
      List.modify_eq_self (List.getElem?_eq_none_iff.1 hr)
    exact h.congr rfl hm rfl
  | some r =>
    obtain ⟨ho, hg, hfit⟩ := hf r (h.fit c r hr)
    exact h.modify hr ho hg hfit

section Dial

variable {addr : RelayAddr Origin Key} {caller : RelayCaller}

theorem dial_last : (s.dial addr caller).made[s.made.length]? = some (.new addr caller) := by
  simp [Relays.dial]

theorem dial_old {c : Nat} {r : RelayConn Origin Key} (hr : s.made[c]? = some r) :
    (s.dial addr caller).made[c]? = some r := by
  obtain ⟨hlt, -⟩ := List.getElem?_eq_some_iff.1 hr
  simpa [Relays.dial, List.getElem?_append_left hlt] using hr

theorem dial_cases {c : Nat} {r : RelayConn Origin Key}
    (hr : (s.dial addr caller).made[c]? = some r) :
    s.made[c]? = some r ∨ c = s.made.length ∧ r = .new addr caller := by
  obtain hlt | hge := Nat.lt_or_ge c s.made.length
  · left
    simpa [Relays.dial, List.getElem?_append_left hlt] using hr
  · right
    obtain ⟨hlt, -⟩ := List.getElem?_eq_some_iff.1 hr
    have hc : c = s.made.length := by
      simp only [Relays.dial, List.length_append, List.length_singleton] at hlt
      omega
    subst hc
    rw [dial_last] at hr
    exact ⟨rfl, (Option.some.inj hr).symm⟩

/-- A new `RelayConn` for an origin the map does not hold. -/
theorem Book.dial (h : s.Book) (hnone : s.conns.get addr.origin = none) :
    (s.dial addr caller).Book := by
  refine ⟨fun o c hc => ?_, fun c r hr hg => ?_, fun c r hr => ?_⟩
  · simp only [Relays.dial, OrdMap.get_set] at hc
    split at hc
    · next ho =>
      cases hc
      exact ⟨_, dial_last, rfl, ho.symm⟩
    · obtain ⟨r, hr, hrest⟩ := h.entry o c hc
      exact ⟨r, dial_old hr, hrest⟩
  · obtain hr | ⟨rfl, rfl⟩ := dial_cases hr
    · have hin := h.only c r hr hg
      have hne : r.origin ≠ addr.origin := by
        intro ho
        rw [ho, hnone] at hin
        cases hin
      simpa [Relays.dial, OrdMap.get_set, hne] using hin
    · simp [Relays.dial, RelayConn.new]
  · obtain hr | ⟨rfl, rfl⟩ := dial_cases hr
    · exact h.fit c r hr
    · exact ⟨fun _ => .inl rfl, fun hn => (by cases hn), fun _ => ⟨rfl, rfl⟩, fun _ hn => (by cases hn)⟩

theorem Waits.dial (h : s.Waits) : (s.dial addr caller).Waits := by
  refine ⟨fun c r hr w hw => ?_, h.past, fun w c hw => ?_⟩
  · obtain hr | ⟨rfl, rfl⟩ := dial_cases hr
    · exact h.known c r hr w hw
    · cases hw
  · obtain ⟨r, hr, hcount⟩ := h.once w c hw
    exact ⟨r, dial_old hr, hcount⟩

end Dial

/-! One event. -/

/-- A live `RelayConn` goes, and where it was the home relay's a redial is due. -/
theorem Kept.retired (h : s.Kept) {c : Nat} {r : RelayConn Origin Key}
    (hr : s.made[c]? = some r) (hg : r.gone = false)
    {f : RelayConn Origin Key → RelayConn Origin Key} (hf : (f r).gone = true)
    (hw : (f r).waiters = []) (hfit : (f r).Fit s.netLinkClosed) {at' : Option ℚ} {ms : ℚ}
    (hhome : s.home = some r.origin → at'.isSome = true)
    (haway : s.home ≠ some r.origin → at' = s.retryAt) :
    { s.retire c r f with retryAt := at', retryMs := ms }.Kept where
  book := (h.book.retire hr hg hf hfit).congr rfl rfl rfl
  waits := (h.waits.settle hr hw false).congr rfl rfl rfl
  due := by
    refine ⟨h.due.addr, fun o ho => ?_⟩
    change s.home = some o at ho
    by_cases hor : o = r.origin
    · subst hor
      exact .inr (hhome ho)
    · have hne : s.home ≠ some r.origin := by
        rw [ho]
        exact fun he => hor (Option.some.inj he)
      simpa [retire, OrdMap.get_delete, hor, haway hne] using h.due.due o ho

theorem Kept.linkEnd (h : s.Kept) (m : Moment) (c : Nat) : (s.linkEnd m c).Kept := by
  cases hr : s.made[c]? with
  | none => simpa [Relays.linkEnd, hr] using h
  | some r =>
    by_cases hup : r.Up
    · have hfit := h.book.fit c r hr
      have hg : r.gone = false := by
        by_contra hg
        exact (hfit.ended (by simpa using hg)).1 hup
      obtain ⟨at', ms, he, hhome, haway⟩ := linkEnd_eq m hr hup hg (h.book.only c r hr hg)
      rw [he]
      exact h.retired hr hg rfl rfl hfit.shut hhome haway
    · rwa [linkEnd_down m hr hup]

/-- The dial of a live `RelayConn` does not fail. -/
def Meets (s : Relays Origin Key) : RelayEvent Origin Key → Prop
  | .opened c none => s.Dialing c → (s.made[c]?.map fun r => r.gone) = some true
  | _ => True

instance (s : Relays Origin Key) (e : RelayEvent Origin Key) : Decidable (s.Meets e) :=
  match e with
  | .opened c none =>
    inferInstanceAs (Decidable (s.Dialing c → (s.made[c]?.map fun r => r.gone) = some true))
  | .opened _ (some _) | .join _ | .call _ | .wake _ | .authed _ | .registered _
  | .linkClosed _ | .resume _ _ => isTrue trivial

theorem modify_modify (s : Relays Origin Key) (c : Nat)
    (f g : RelayConn Origin Key → RelayConn Origin Key) :
    (s.modify c f).modify c g = s.modify c (g ∘ f) := by
  simp only [modify, List.modify_modify_eq]

theorem Kept.later (h : s.Kept) (t : RelayTask) : (s.later t).Kept :=
  ⟨h.book.congr rfl rfl rfl, h.waits.congr rfl rfl rfl, h.due.addr, h.due.due⟩

section Opened

variable {c : Nat} {r : RelayConn Origin Key} (h : s.Kept) (m : Moment)
  (hr : s.made[c]? = some r)
include h hr

theorem Kept.opened_failed (hg : r.gone = true) : (s.opened m c none).Kept := by
  have he : s.opened m c none =
      s.modify c fun r => { r with dialing := false, answered := none } := by
    simp only [Relays.opened, hr]
  have hfit := h.book.fit c r hr
  rw [he]
  refine ⟨h.book.modify hr rfl rfl ⟨fun hn => ?_, fun _ => hfit.ended hg, nofun, nofun⟩,
    h.waits.modify c fun _ => rfl, h.due.addr, h.due.due⟩
  rw [hg] at hn
  cases hn

/-- Nobody wants the link any more: it is closed, if there is one. -/
theorem Kept.opened_gone (hg : r.gone = true) (id : Nat) : (s.opened m c (some id)).Kept := by
  let ids := if id = 0 then [] else [id]
  let g : RelayConn Origin Key → RelayConn Origin Key :=
    fun r => { r with dialing := false, answered := some id }
  let s' := { s with netLinkClosed := s.netLinkClosed ++ ids }.modify c g
  have hgone : s'.made[c]? = some (g r) := by simp [s', hr]
  have he : s.opened m c (some id) = s'.later (.connected (some c) r.caller) := by
    rw [← onLinkClosed_gone (s := s') m hgone hg]
    by_cases h0 : id = 0
    · simp [Relays.opened, hr, h0, s', ids, g, modify]
    · simp [Relays.opened, hr, hg, h0, s', ids, g, modify]
  have hfit : r.Fit (s.netLinkClosed ++ ids) := (h.book.fit c r hr).mono
  have hg' : (g r).Fit (s.netLinkClosed ++ ids) := by
    refine ⟨fun hn => ?_, fun _ => hfit.ended hg, nofun, fun id' hid h0 => ?_⟩
    · change r.gone = false at hn
      rw [hg] at hn
      cases hn
    · cases hid
      exact .inr (by simp [ids, h0])
  rw [he]
  apply Kept.later
  have hbook : s'.Book := (h.book.closing ids).modify hr rfl rfl hg'
  have hwaits : s'.Waits :=
    Waits.congr (s := s.modify c g) (h.waits.modify c fun _ => rfl) rfl rfl rfl
  exact ⟨hbook, hwaits, h.due.addr, h.due.due⟩

/-- No route: the `RelayConn` is gone. -/
theorem Kept.opened_unroutable (hd : r.dialing = true) (hg : r.gone = false) :
    (s.opened m c (some 0)).Kept := by
  let g : RelayConn Origin Key → RelayConn Origin Key :=
    fun r => { r with dialing := false, answered := some 0 }
  have hfit := h.book.fit c r hr
  obtain ⟨hlink, -⟩ := hfit.dialing hd
  have hmade : (s.modify c g).made[c]? = some (g r) := by simp [hr]
  obtain ⟨at', ms, he, hhome, haway⟩ :=
    onLinkClosed_eq m hmade hg (h.book.only c r hr hg)
  have hopened : s.opened m c (some 0) =
      ((s.modify c g).onLinkClosed m c).later (.connected (some c) r.caller) := by
    simp [Relays.opened, hr, g]
  have hretire : (s.modify c g).retire c (g r) .leave = s.retire c r (RelayConn.leave ∘ g) := by
    rw [retire, modify_modify]
    rfl
  rw [hopened, he, hretire]
  apply Kept.later
  refine h.retired hr hg rfl rfl
    ⟨(fun hn => by cases hn), fun _ => ⟨?_, rfl⟩, (fun hn => by cases hn), fun id hid h0 => ?_⟩
    hhome haway
  · rintro ⟨l, hl, -⟩
    change r.link = some l at hl
    rw [hlink] at hl
    cases hl
  · cases hid
    exact absurd rfl h0

theorem Kept.opened_link (hg : r.gone = false) {id : Nat} (h0 : id ≠ 0) :
    (s.opened m c (some id)).Kept := by
  let l : RelayLink := ⟨id, !decide (some r.origin = s.home), false, false⟩
  let g : RelayConn Origin Key → RelayConn Origin Key :=
    fun r => { r with dialing := false, answered := some id, link := some l }
  have he : s.opened m c (some id) = (s.modify c g).later (.connected (some c) r.caller) := by
    have hm : s.modify c g = (s.modify c fun r =>
        { r with dialing := false, answered := some id }).modify c
          fun r => { r with link := some l } := by
      rw [modify_modify]
      rfl
    rw [hm]
    simp only [Relays.opened, hr, hg, h0, Bool.false_eq_true, or_self, if_false]
    rfl
  have hup : (g r).Up := ⟨l, rfl, rfl⟩
  rw [he]
  apply Kept.later
  have hfit : (g r).Fit s.netLinkClosed := by
    refine ⟨fun _ => .inr hup, fun hn => ?_, nofun, fun id' hid _ => .inl ⟨l, rfl, ?_⟩⟩
    · change r.gone = true at hn
      rw [hg] at hn
      cases hn
    · exact Option.some.inj hid
  exact ⟨h.book.modify hr rfl rfl hfit, h.waits.modify c fun _ => rfl, h.due.addr, h.due.due⟩

end Opened

theorem Kept.opened (h : s.Kept) (m : Moment) {c : Nat} {answer : Option Nat}
    (hmeets : s.Meets (.opened c answer)) (hd : s.Dialing c) :
    (s.opened m c answer).Kept := by
  obtain ⟨r, hr, hdial⟩ := hd
  cases answer with
  | none =>
    have hgone := hmeets ⟨r, hr, hdial⟩
    rw [hr] at hgone
    exact h.opened_failed m hr (Option.some.inj hgone)
  | some id =>
    cases hg : r.gone with
    | true => exact h.opened_gone m hr hg id
    | false =>
      by_cases h0 : id = 0
      · subst h0
        exact h.opened_unroutable m hr hdial hg
      · exact h.opened_link m hr hg h0

theorem Kept.authed (h : s.Kept) (c : Nat) :
    (s.modify c fun r => r.mapLink fun l => { l with authed := true }).Kept := by
  refine ⟨h.book.modify_all c fun r hfit => ⟨rfl, rfl, ?_⟩, h.waits.modify c fun _ => rfl,
    h.due.addr, h.due.due⟩
  exact (hfit.mapLink (f := fun l => { l with authed := true }) (fun _ => rfl) fun _ => rfl).1

theorem Kept.keep (h : s.Kept) (c : Nat) : (s.keep c).Kept := by
  refine ⟨h.book.modify_all c fun r hfit => ⟨rfl, rfl, ?_⟩, h.waits.modify c fun _ => rfl,
    h.due.addr, h.due.due⟩
  exact (hfit.mapLink (f := fun l => { l with idles := false }) (fun _ => rfl) fun _ => rfl).1

theorem Kept.onRegistered (h : s.Kept) (m : Moment) (c : Nat) : (s.onRegistered m c).Kept := by
  cases hr : s.made[c]? with
  | none => simpa [Relays.onRegistered, hr] using h
  | some r =>
    cases hreg : r.registered with
    | true => simpa [Relays.onRegistered, hr, hreg] using h
    | false =>
      simp only [Relays.onRegistered, hr, hreg, Bool.false_eq_true, if_false]
      have hfit := h.book.fit c r hr
      have hbook := h.book.modify hr (f := fun r =>
          { r with registered := true, upSince := some m.now, waiters := [] }) rfl rfl
        ⟨hfit.live, fun hg => ⟨(hfit.ended hg).1, rfl⟩, hfit.dialing, hfit.answered⟩
      exact ⟨hbook.congr rfl rfl rfl, h.waits.settle hr rfl true, h.due.addr, h.due.due⟩

theorem Kept.ready (h : s.Kept) (c : Nat) (caller : RelayCaller) : (s.ready c caller).Kept := by
  cases hr : s.made[c]? with
  | none => simpa [Relays.ready, hr] using h
  | some r =>
    simp only [Relays.ready, hr]
    split
    · exact h.later _
    split
    · exact h.later _
    · next hg =>
      have hfit := h.book.fit c r hr
      have hbook := h.book.modify hr (f := fun r =>
          { r with waiters := r.waiters ++ [(s.asked.length, caller)] }) rfl rfl
        ⟨hfit.live, fun hg' => absurd hg' hg, hfit.dialing, hfit.answered⟩
      exact ⟨hbook.congr rfl rfl rfl, h.waits.ask hr caller, h.due.addr, h.due.due⟩

/-- A task goes on: `keep`, `ready`, or the next await. -/
theorem Kept.resume (h : s.Kept) (t : RelayTask) (ok : Bool) : (s.resume t ok).Kept := by
  match t with
  | .connected none _ => exact h
  | .connected (some c) .dialHome => exact (h.keep c).ready c _
  | .connected (some c) .call => exact h.ready c _
  | .readied _ .dialHome _ => exact h
  | .readied _ .call false => exact h
  | .readied c .call true => exact h.later _
  | .ticket c | .sending c =>
    simp only [Relays.resume]
    split
    · exact h.later _
    · exact h
  | .splicing => exact h

/-- What a `drop` of the map's entry leaves. -/
theorem Book.dropped (h : s.Book) (m : Moment) {o : Origin} {c : Nat}
    (hc : s.conns.get o = some c) :
    ∃ r, s.made[c]? = some r ∧ r.gone = false ∧ r.origin = o ∧
      s.drop m c = s.retire c r .shut := by
  obtain ⟨r, hr, hg, rfl⟩ := h.entry o c hc
  exact ⟨r, hr, hg, rfl, drop_eq m hr (h.fit c r hr) hg hc⟩

theorem Book.drop (h : s.Book) (m : Moment) {o : Origin} {c : Nat}
    (hc : s.conns.get o = some c) : (s.drop m c).Book := by
  obtain ⟨r, hr, hg, -, he⟩ := h.dropped m hc
  rw [he]
  exact h.retire hr hg rfl (h.fit c r hr).shut

theorem Waits.drop (h : s.Waits) (hb : s.Book) (m : Moment) {o : Origin} {c : Nat}
    (hc : s.conns.get o = some c) : (s.drop m c).Waits := by
  obtain ⟨r, hr, -, -, he⟩ := hb.dropped m hc
  rw [he]
  exact (h.settle hr rfl false).congr rfl rfl rfl

theorem new_kept : (new : Relays Origin Key).Kept where
  book := ⟨by simp [new], by simp [new], by simp [new]⟩
  waits := ⟨by simp [new], by simp [new], by simp [new]⟩
  due := ⟨rfl, by simp [new]⟩

variable [DecidableEq Key]

/-- What `conn` of the home relay leaves: an entry for its origin. -/
theorem conn_home (hb : s.Book) (hw : s.Waits) (m : Moment) (addr : RelayAddr Origin Key) :
    (s.conn m addr .dialHome).Book ∧ (s.conn m addr .dialHome).Waits ∧
      (s.conn m addr .dialHome).home = s.home ∧
      (s.conn m addr .dialHome).homeAddr = s.homeAddr ∧
      ((s.conn m addr .dialHome).conns.get addr.origin).isSome = true := by
  unfold conn
  split
  · next hnone =>
    exact ⟨hb.dial hnone, hw.dial, rfl, rfl, by simp [Relays.dial]⟩
  · next c hc =>
    split
    · exact ⟨hb.congr rfl rfl rfl, hw.congr rfl rfl rfl, rfl, rfl, by simp [Relays.later, hc]⟩
    · obtain ⟨r, hr, hg, ho, he⟩ := hb.dropped m hc
      have hoff : (s.drop m c).conns.get addr.origin = none := by
        rw [he, ← ho]
        simp [retire, OrdMap.get_delete]
      refine ⟨(hb.drop m hc).dial hoff, (hw.drop hb m hc).dial, ?_, ?_, by simp [Relays.dial]⟩ <;>
      · rw [he]
        rfl

/-- A call dials a relay the map has no entry for, and leaves every other link as it is. -/
theorem call_cases (s : Relays Origin Key) (m : Moment) (addr : RelayAddr Origin Key) :
    s.conns.get addr.origin = none ∧ s.call m addr = s.dial addr .call ∨
      ∃ t, s.call m addr = s.later t := by
  unfold call conn
  split
  · next hnone => exact .inl ⟨hnone, rfl⟩
  · right
    split <;> exact ⟨_, rfl⟩

/-- A call keeps the entries of the map, and their `RelayConn`s as they are. -/
theorem call_keeps (s : Relays Origin Key) (m : Moment) (addr : RelayAddr Origin Key) :
    (∀ o c, s.conns.get o = some c → (s.call m addr).conns.get o = some c) ∧
      ∀ (c : Nat) (r : RelayConn Origin Key), s.made[c]? = some r →
        (s.call m addr).made[c]? = some r := by
  obtain ⟨hnone, he⟩ | ⟨t, he⟩ := call_cases s m addr <;> rw [he]
  · refine ⟨fun o c hc => ?_, fun c r hr => dial_old hr⟩
    have hne : o ≠ addr.origin := by
      rintro rfl
      rw [hnone] at hc
      cases hc
    simpa [Relays.dial, OrdMap.get_set, hne] using hc
  · exact ⟨fun o c hc => hc, fun c r hr => hr⟩

theorem Kept.call (h : s.Kept) (m : Moment) (addr : RelayAddr Origin Key) :
    (s.call m addr).Kept := by
  have hkeeps := (s.call_keeps m addr).1
  obtain ⟨hnone, he⟩ | ⟨t, he⟩ := call_cases s m addr
  · rw [he] at hkeeps ⊢
    refine ⟨h.book.dial hnone, h.waits.dial, h.due.addr, fun o ho => ?_⟩
    refine (h.due.due o ho).imp_left fun hin => ?_
    obtain ⟨c, hc⟩ := Option.isSome_iff_exists.1 hin
    rw [hkeeps o c hc]
    rfl
  · rw [he]
    exact h.later t

/-- A dial of the home relay leaves it in the map, whatever redial was due. -/
theorem dialHome_kept (hb : s.Book) (hw : s.Waits)
    (haddr : s.home = s.homeAddr.map RelayAddr.origin) (m : Moment) : (s.dialHome m).Kept := by
  unfold dialHome
  split
  · next hnone =>
    refine ⟨hb, hw, haddr, fun o ho => ?_⟩
    rw [haddr, hnone] at ho
    cases ho
  · next addr hsome =>
    obtain ⟨hb', hw', hhome, hhomeAddr, hin⟩ := conn_home hb hw m addr
    refine ⟨hb', hw', by rw [hhome, hhomeAddr, haddr], fun o ho => .inl ?_⟩
    rw [hhome, haddr, hsome] at ho
    cases ho
    exact hin

theorem Kept.onWake (h : s.Kept) (m : Moment) (t : ℚ) : (s.onWake m t).Kept := by
  unfold Relays.onWake
  split
  · exact dialHome_kept (s := { s with retryAt := none }) (h.book.congr rfl rfl rfl)
      (h.waits.congr rfl rfl rfl) h.due.addr m
  · exact h

theorem Kept.join (h : s.Kept) (m : Moment) (addr : Option (RelayAddr Origin Key)) :
    (s.join m addr).Kept := by
  have hleft : (s.leaveHome m (addr.map RelayAddr.origin)).Book ∧
      (s.leaveHome m (addr.map RelayAddr.origin)).Waits := by
    unfold leaveHome
    split
    · exact ⟨h.book, h.waits⟩
    split
    · exact ⟨h.book, h.waits⟩
    split
    · exact ⟨h.book, h.waits⟩
    · next c hc => exact ⟨h.book.drop m hc, h.waits.drop h.book m hc⟩
  unfold Relays.join
  apply dialHome_kept
  · exact hleft.1.congr rfl rfl rfl
  · exact hleft.2.congr rfl rfl rfl
  · rfl

theorem Kept.step (h : s.Kept) (m : Moment) {e : RelayEvent Origin Key} (hmeets : s.Meets e) :
    (s.step m e).Kept := by
  cases e with
  | join addr => exact h.join m addr
  | call addr => exact h.call m addr
  | wake t => exact h.onWake m t
  | opened c answer =>
    simp only [Relays.step]
    split
    · next hd => exact h.opened m hmeets hd
    · exact h
  | authed c =>
    simp only [Relays.step]
    split
    · exact h.authed c
    · exact h
  | registered c =>
    simp only [Relays.step]
    split
    · exact h.onRegistered m c
    · exact h
  | linkClosed c => exact h.linkEnd m c
  | resume i ok =>
    simp only [Relays.step]
    split
    · exact h
    · next t ht =>
      have hless : { s with tasks := s.tasks.eraseIdx i }.Kept :=
        ⟨h.book.congr rfl rfl rfl, h.waits.congr rfl rfl rfl, h.due.addr, h.due.due⟩
      exact hless.resume t ok

/-- No dial of a run fails while its `RelayConn` is live. -/
def Steady (s : Relays Origin Key) : List (Moment × RelayEvent Origin Key) → Prop
  | [] => True
  | e :: es => s.Meets e.2 ∧ (s.step e.1 e.2).Steady es

instance instDecidableSteady (s : Relays Origin Key) (es : List (Moment × RelayEvent Origin Key)) :
    Decidable (s.Steady es) :=
  match es with
  | [] => isTrue trivial
  | e :: es =>
    have := instDecidableSteady (s.step e.1 e.2) es
    inferInstanceAs (Decidable (s.Meets e.2 ∧ (s.step e.1 e.2).Steady es))

theorem Kept.run (h : s.Kept) {es : List (Moment × RelayEvent Origin Key)} (hs : s.Steady es) :
    (s.run es).Kept := by
  induction es generalizing s with
  | nil => exact h
  | cons e es ih => exact ih (h.step e.1 hs.1) hs.2

theorem ready_conns (s : Relays Origin Key) (c : Nat) (caller : RelayCaller) :
    (s.ready c caller).conns = s.conns ∧ ∀ c', (s.ready c caller).Linked c' ↔ s.Linked c' := by
  unfold ready
  split
  · exact ⟨rfl, fun c' => Iff.rfl⟩
  split
  · exact ⟨rfl, fun c' => Iff.rfl⟩
  split
  · exact ⟨rfl, fun c' => Iff.rfl⟩
  · refine ⟨rfl, fun c' => ?_⟩
    simp only [Linked, modify_made]
    split
    · cases s.made[c']? <;> simp [RelayConn.Up]
    · rfl

theorem keep_conns (s : Relays Origin Key) (c : Nat) :
    (s.keep c).conns = s.conns ∧ ∀ c', (s.keep c).Linked c' ↔ s.Linked c' := by
  refine ⟨rfl, fun c' => ?_⟩
  simp only [Linked, keep, modify_made]
  split
  · cases s.made[c']? <;> simp [RelayConn.Up, RelayConn.mapLink]
  · rfl

/-- What follows an await, a call's rest too, changes no entry and ends no link. -/
theorem resume_conns (s : Relays Origin Key) (t : RelayTask) (ok : Bool) :
    (s.resume t ok).conns = s.conns ∧ ∀ c, (s.resume t ok).Linked c ↔ s.Linked c := by
  match t with
  | .connected none _ => exact ⟨rfl, fun c => Iff.rfl⟩
  | .connected (some c) .dialHome =>
    obtain ⟨hk, hkl⟩ := s.keep_conns c
    obtain ⟨hr, hrl⟩ := (s.keep c).ready_conns c .dialHome
    exact ⟨hr.trans hk, fun c' => (hrl c').trans (hkl c')⟩
  | .connected (some c) .call => exact s.ready_conns c .call
  | .readied _ .dialHome _ => exact ⟨rfl, fun c => Iff.rfl⟩
  | .readied _ .call false => exact ⟨rfl, fun c => Iff.rfl⟩
  | .readied c .call true => exact ⟨rfl, fun c => Iff.rfl⟩
  | .ticket c | .sending c =>
    simp only [resume]
    split <;> exact ⟨rfl, fun c => Iff.rfl⟩
  | .splicing => exact ⟨rfl, fun c => Iff.rfl⟩

/-- The home relay is in the map with a dial in flight or a link, or is dialed again when
`retryAt` comes; the map holds every `RelayConn` that is not gone, one for each origin; one off
the map has its link closed; a `ready` promise is settled once, when its `RelayConn` is gone at
the latest; and a call, whatever key it names, leaves the map's links as they are. -/
structure Held (s : Relays Origin Key) : Prop where
  home : ∀ o, s.home = some o →
    (∃ c, s.conns.get o = some c ∧ (s.Dialing c ∨ s.Linked c)) ∨ s.retryAt.isSome = true
  entry : ∀ o c, s.conns.get o = some c →
    ∃ r, s.made[c]? = some r ∧ r.gone = false ∧ r.origin = o
  only : ∀ (c : Nat) (r : RelayConn Origin Key), s.made[c]? = some r → r.gone = false →
    s.conns.get r.origin = some c
  off : ∀ (c : Nat) (r : RelayConn Origin Key), s.made[c]? = some r →
    s.conns.get r.origin ≠ some c → ¬ r.Up ∧ ∀ id, r.answered = some id → id ≠ 0 →
      (∃ l, r.link = some l ∧ l.linkId = id ∧ l.closed = true) ∨ id ∈ s.netLinkClosed
  once : ∀ w c : Nat, s.asked[w]? = some c → ∃ r, s.made[c]? = some r ∧
    (s.settled.map Prod.fst).count w ≤ 1 ∧
    ((s.settled.map Prod.fst).count w = 0 → r.gone = false ∧ w ∈ r.waiters.map Prod.fst)
  call : ∀ (m : Moment) (addr : RelayAddr Origin Key) (o : Origin) (c : Nat),
    s.conns.get o = some c →
      (s.step m (.call addr)).conns.get o = some c ∧
      (s.step m (.call addr)).made[c]? = s.made[c]?
  rest : ∀ (m : Moment) (i : Nat) (ok : Bool), (s.step m (.resume i ok)).conns = s.conns ∧
    ∀ c, (s.step m (.resume i ok)).Linked c ↔ s.Linked c

theorem Kept.held (h : s.Kept) : s.Held where
  home o ho := by
    refine (h.due.due o ho).imp_left fun hin => ?_
    obtain ⟨c, hc⟩ := Option.isSome_iff_exists.1 hin
    obtain ⟨r, hr, hg, -⟩ := h.book.entry o c hc
    exact ⟨c, hc, ((h.book.fit c r hr).live hg).imp (fun hd => ⟨r, hr, hd⟩) fun hup => ⟨r, hr, hup⟩⟩
  entry := h.book.entry
  only := h.book.only
  off c r hr hoff := by
    have hfit := h.book.fit c r hr
    have hg : r.gone = true := by
      by_contra hg
      exact hoff (h.book.only c r hr (by simpa using hg))
    have hdown := (hfit.ended hg).1
    refine ⟨hdown, fun id hid h0 => (hfit.answered id hid h0).imp_left ?_⟩
    rintro ⟨l, hl, hlid⟩
    refine ⟨l, hl, hlid, ?_⟩
    by_contra hc
    exact hdown ⟨l, hl, by simpa using hc⟩
  once w c hw := by
    obtain ⟨r, hr, hcount⟩ := h.waits.once w c hw
    refine ⟨r, hr, by omega, fun h0 => ?_⟩
    have hmem : w ∈ r.waiters.map Prod.fst := by
      rw [← List.count_pos_iff]
      omega
    refine ⟨?_, hmem⟩
    by_contra hg
    rw [((h.book.fit c r hr).ended (by simpa using hg)).2] at hmem
    cases hmem
  call m addr o c hc := by
    obtain ⟨hconns, hmade⟩ := s.call_keeps m addr
    obtain ⟨r, hr, -⟩ := h.book.entry o c hc
    exact ⟨hconns o c hc, (hmade c r hr).trans hr.symm⟩
  rest m i ok := by
    simp only [Relays.step]
    split
    · exact ⟨rfl, fun c => Iff.rfl⟩
    · next t ht => exact resume_conns { s with tasks := s.tasks.eraseIdx i } t ok

/-- Where no relay's dial fails while its `RelayConn` is live, no run forgets the home relay. -/
theorem run_held (es : List (Moment × RelayEvent Origin Key))
    (hs : (new : Relays Origin Key).Steady es) : (new.run es : Relays Origin Key).Held :=
  (new_kept.run hs).held

/-- The home relay's first dial finds no route, the second comes up and registers; a call names
another key for it, and the link goes. -/
def redialedRun : List (Moment × RelayEvent Nat Nat) :=
  [(⟨0, 0⟩, .join (some ⟨1, 10⟩)), (⟨5, 0⟩, .opened 0 (some 0)), (⟨1005, 0⟩, .wake 1005),
    (⟨1010, 0⟩, .opened 1 (some 7)), (⟨1020, 0⟩, .authed 1), (⟨1030, 0⟩, .registered 1),
    (⟨1040, 0⟩, .call ⟨1, 11⟩), (⟨90000, 0⟩, .linkClosed 1)]

theorem redialedRun_held : (new.run redialedRun : Relays Nat Nat).Held ∧
    (new.run redialedRun : Relays Nat Nat).retryAt = some 91000 :=
  ⟨run_held redialedRun (by decide), by decide +kernel⟩

/-- The `link/open` of the home relay's dial throws; a wake and a call follow. -/
def forgottenRun : List (Moment × RelayEvent Nat Nat) :=
  [(⟨0, 0⟩, .join (some ⟨1, 10⟩)), (⟨5, 0⟩, .opened 0 none), (⟨90000, 0⟩, .wake 90000),
    (⟨90010, 0⟩, .call ⟨1, 10⟩), (⟨90010, 0⟩, .resume 0 true)]

/-- Nothing dials it any more, and a call waits on it for good. -/
theorem forgottenRun_lost : ¬ (new.run forgottenRun : Relays Nat Nat).Held ∧
    (new.run forgottenRun : Relays Nat Nat).home = some 1 ∧
    (new.run forgottenRun : Relays Nat Nat).conns.get 1 = some 0 ∧
    (new.run forgottenRun : Relays Nat Nat).retryAt = none ∧
    (new.run forgottenRun : Relays Nat Nat).settled = [] := by
  refine ⟨fun hheld => ?_, by decide, by decide, by decide, by decide⟩
  obtain ⟨c, hc, hlive⟩ | hdue := hheld.home 1 (by decide)
  · obtain rfl : c = 0 := (Option.some.inj ((show _ = some 0 by decide).symm.trans hc)).symm
    revert hlive
    decide
  · revert hdue
    decide

end Relays

end SeedTransport

import JhCommon.Transition
import JhCommon.WatchingNodes

/-! What a selector calls. A socket takes itself out of its selector's list before it gives its
descriptor up, and a file does not. -/
namespace JhCommon
open Transition

namespace Watching
variable {w : Watching} {a s sel : ℕ} {o : Watched} {k : Socket} {f : File} {n : ListenerNode} {fd : ℤ}

/-- A socket that has got its connection is listened to from then on. -/
theorem Sound.setConnected (h : w.Sound) (ho : w.objs s = some (.socket k)) (hfd : k.mFd ≠ -1)
    {flags : BitVec 16} (hflags : flags = pollIn ∨ flags = pollIn ||| pollOut ∧ k.mConnectedAsync = true) :
    (w.setConnected s k true flags).Sound := by
  by_cases hconnected : k.mConnected = true
  · rw [Watching.setConnected, if_pos hconnected]
    exact h
  · have hquiet : w.Quiet s := by
      apply h.quiet ho
      exact fun sel n hlistens => hconnected (hlistens.socket k rfl).1
    obtain ⟨hput,hquiet'⟩ := (h.but (some s)).put_same (p := .socket { k with mConnected := true }) hquiet ho
      rfl (by intro k' hk' _; cases hk'; exact hfd)
    simp only [Watching.setConnected, if_neg hconnected]
    split
    · rename_i sel l hsel hl
      apply hput.add hquiet' (objs_put ..)
      constructor
      case listener | fd => rfl
      case opened => exact hfd
      case selector => exact hsel
      case socket =>
        intro k' hk'
        cases hk'
        exact ⟨rfl,by rw [hl]; exact Option.some_ne_none l,hflags⟩
      case file =>
        intro f hf
        cases hf
    · rename_i hno
      apply hput.settle (objs_put ..)
      rintro sel ⟨k',hk',-,hsel,hl⟩
      cases hk'
      obtain ⟨l,hl⟩ := Option.ne_none_iff_exists'.mp hl
      exact hno sel l hsel hl

/-- Before its descriptor is given up a socket leaves its selector. -/
theorem Sound.disconnect (h : w.Sound) (ho : w.objs s = some (.socket k)) (hahead : ¬w.Ahead s)
    (p : Watched) :
    ∃ v : Watching, v.SoundBut (some s) ∧ v.Quiet s ∧ v.objs s = some (.socket k) ∧
      (w.setConnected s k false pollIn).put s p = v.put s p := by
  by_cases hconnected : k.mConnected = false
  · refine ⟨w,h.but (some s),h.quiet ho ?_,ho,by rw [Watching.setConnected, if_pos hconnected]⟩
    intro sel n hlistens
    exact Bool.false_ne_true (hconnected.symm.trans (hlistens.socket k rfl).1)
  · simp only [Watching.setConnected, if_neg hconnected]
    split
    · rename_i sel l hsel hl
      obtain ⟨hleft,hquiet⟩ := h.remove ho hsel hahead
      refine ⟨_,hleft,hquiet,ho,?_⟩
      simp [put, removeListener, Watched.mFd]
    · rename_i hno
      refine ⟨w,h.but (some s),h.quiet ho ?_,ho,put_put _ _⟩
      intro sel n hlistens
      obtain ⟨l,hl⟩ := Option.ne_none_iff_exists'.mp (hlistens.socket k rfl).2.1
      exact hno sel l hlistens.selector hl

theorem Sound.close (h : w.Sound) (ho : w.objs s = some (.socket k)) (hahead : ¬w.Ahead s)
    (error : Option ℤ) :
    (w.close s k error).2.Sound ∧ (w.close s k error).2.Quiet s := by
  by_cases hfd : k.mFd = -1
  · rw [Watching.close, if_neg (not_not_intro hfd)]
    exact ⟨h,h.quiet_closed ho hfd⟩
  · obtain ⟨v,hbut,hquiet,hv,heq⟩ := h.disconnect ho hahead (.socket { k with mConnected := false, mFd := -1 })
    obtain ⟨hput,hquiet'⟩ := hbut.put_closed hquiet hv (p := .socket { k with mConnected := false, mFd := -1 })
      rfl (by intro k' hk'; cases hk'; rfl)
    rw [Watching.close, if_pos hfd]
    simp only [heq]
    refine ⟨hput.settle (objs_put ..) ?_,hquiet'⟩
    rintro sel ⟨k',hk',hconnected,-⟩
    cases hk'
    exact Bool.false_ne_true hconnected

theorem Sound.delete (h : w.Sound) (ho : w.objs s = some (.socket k)) (hahead : ¬w.Ahead s)
    (error : Option ℤ) : (w.delete s k error).Sound :=
  (h.close ho hahead error).1.free (h.close ho hahead error).2

theorem Sound.setSelector (h : w.Sound) (ho : w.objs s = some (.socket k)) (hahead : ¬w.Ahead s)
    (listener selector : Option ℕ) : (w.setSelector s k listener selector).Sound := by
  by_cases hconnected : k.mConnected = true
  · have hfd := h.connected s k ho hconnected
    obtain ⟨hleft,hquiet⟩ := h.leave ho hahead
    have hk : (w.leave k.mFd k.mSelector).objs s = some (.socket k) := by
      rw [objs_leave]
      exact ho
    obtain ⟨hput,hquiet'⟩ := hleft.put_same (p := .socket { k with mListener := listener, mSelector := selector })
      hquiet hk rfl (by intro k' hk' _; cases hk'; exact hfd)
    simp only [Watching.setSelector, if_pos hconnected]
    split
    · rename_i sel l
      apply hput.add hquiet' (objs_put ..)
      constructor
      case listener | fd | selector => rfl
      case opened => exact hfd
      case socket =>
        intro k' hk'
        cases hk'
        exact ⟨hconnected,Option.some_ne_none l,.inl rfl⟩
      case file =>
        intro f hf
        cases hf
    · rename_i hno
      apply hput.settle (objs_put ..)
      rintro sel ⟨k',hk',-,hsel,hl⟩
      cases hk'
      obtain ⟨l,hl⟩ := Option.ne_none_iff_exists'.mp hl
      exact hno sel l hsel hl
  -- it is not listened to, and will not be before it is connected
  · have hquiet : w.Quiet s := by
      apply h.quiet ho
      exact fun sel n hlistens => hconnected (hlistens.socket k rfl).1
    obtain ⟨hput,-⟩ := (h.but (some s)).put_same
      (p := .socket { k with mListener := listener, mSelector := selector }) hquiet ho rfl
      (by intro k' hk' hc; cases hk'; exact absurd hc hconnected)
    simp only [Watching.setSelector, if_neg hconnected]
    apply hput.settle (objs_put ..)
    rintro sel ⟨k',hk',hc,-⟩
    cases hk'
    exact hconnected hc

theorem Sound.newAccepted (h : w.Sound) (hfresh : w.Fresh fd) : (w.newAccepted fd).Sound := by
  refine Sound.alloc (o := .socket { newSocket true false fd with mConnected := true }) h (.inl hfresh) ?_ ?_
  · rintro sel ⟨k,hk,-,hsel,-⟩
    cases hk
    cases hsel
  · intro k hk _
    cases hk
    exact hfresh.1

/-- The events of a socket that its selector has, and that no traversal goes on to. -/
theorem Sound.socketEvents (h : w.Sound) (ho : w.objs s = some (.socket k)) (hahead : ¬w.Ahead s)
    (hlistens : Listens s (.socket k) sel n) (events : BitVec 16) (e : EventCalls) :
    (w.socketEvents s k events e).2.Sound := by
  obtain ⟨hconnected,hlistener,-⟩ := hlistens.socket k rfl
  obtain ⟨l,hl⟩ := Option.ne_none_iff_exists'.mp hlistener
  have hsel : k.mSelector = some sel := hlistens.selector
  by_cases hasync : events &&& pollOut ≠ 0 ∧ k.mConnectedAsync = true
  -- it is asked for its output no more
  · obtain ⟨hleft,hquiet⟩ := h.remove ho hsel hahead
    obtain ⟨hput,hquiet'⟩ := hleft.put_same (p := .socket { k with mConnectedAsync := false }) hquiet ho
      rfl (by intro k' hk' _; cases hk'; exact hlistens.opened)
    have hadd : (((w.removeListener sel k.mFd).put s (.socket { k with mConnectedAsync := false })).addListener
        sel k.mFd pollIn s 0).Sound := by
      apply hput.add hquiet' (objs_put ..)
      constructor
      case listener | fd => rfl
      case opened => exact hlistens.opened
      case selector => exact hsel
      case socket =>
        intro k' hk'
        cases hk'
        exact ⟨hconnected,hlistener,.inl rfl⟩
      case file =>
        intro f hf
        cases hf
    rw [Watching.socketEvents, if_pos hasync]
    simp only [hsel, hl] at hadd ⊢
    exact hadd
  · rw [Watching.socketEvents, if_neg hasync]
    split
    · exact h
    · split
      · simp only [hl]
        exact h.waiting _
      · exact h

theorem Sound.serverEvents (h : w.Sound) (e : EventCalls) (hfresh : ∀ fd ∈ e.accept, w.Fresh fd)
    (events : BitVec 16) : (w.serverEvents s k events e).2.Sound := by
  rw [Watching.serverEvents]
  split
  · split
    · cases haccept : e.accept with
      | none => exact h
      | some fd =>
        have hnew := h.newAccepted (hfresh fd haccept)
        cases k.mListener with
        | some l => exact hnew.waiting _
        | none =>
          have hquiet : (w.newAccepted fd).Quiet w.made := by
            apply hnew.quiet (objs_put ..)
            intro sel n hlistens
            cases hlistens.selector
          exact hnew.delete (objs_put ..) (hnew.not_ahead hquiet) e.closeError
    · cases k.mListener <;> exact h
  · exact h

theorem Sound.setFileSelector (h : w.Sound) (ho : w.objs a = some (.file f)) (hahead : ¬w.Ahead a)
    (listener selector : Option ℕ) (events : BitVec 16) :
    (w.setFileSelector a f listener selector events).Sound := by
  by_cases hfd : f.mFd = -1
  · rw [Watching.setFileSelector, if_neg (not_not_intro hfd)]
    exact h
  · obtain ⟨hleft,hquiet⟩ := h.leave ho hahead
    have hf : (w.leave f.mFd f.mSelector).objs a = some (.file f) := by
      rw [objs_leave]
      exact ho
    obtain ⟨hput,hquiet'⟩ := hleft.put_same (p := .file { f with mSelector := selector, mListener := listener })
      hquiet hf rfl (by intro k hk; cases hk)
    simp only [Watching.setFileSelector, if_pos hfd]
    cases selector with
    | none =>
      apply hput.settle (objs_put ..)
      rintro sel ⟨k,hk,-⟩
      cases hk
    | some sel =>
      apply hput.add hquiet' (objs_put ..)
      constructor
      case listener | fd | selector => rfl
      case opened => exact hfd
      case socket =>
        intro k hk
        cases hk
      case file => exact fun _ _ => rfl

theorem Sound.callListeners (h : w.Sound) (sel : ℕ) (fd : ℤ) (revents : BitVec 16) :
    (w.callListeners sel fd revents).Sound where
  old := h.old
  apart := h.apart
  connected := h.connected
  listed := h.listed
  once := h.once
  heard := h.heard
  walked sel' t ht := by
    by_cases hsel : sel' = sel
    · subst hsel
      simp only [Watching.callListeners, Function.update_self, Option.mem_some_iff] at ht
      subst ht
      exact ⟨_,rfl,List.suffix_rfl⟩
    · exact h.walked sel' t ((Function.update_of_ne hsel ..).symm.trans ht)

/-- What a selector calls is there. -/
theorem Sound.processFileEvents (h : w.Sound) (ho : w.objs a = some o) (hahead : ¬w.Ahead a)
    (hlistens : Listens a o sel n) (revents : BitVec 16) (e : EventCalls)
    (hfresh : ∀ fd ∈ e.accept, w.Fresh fd) :
    ∃ out w', w.processFileEvents n revents e = .ok (out,w') ∧ w'.Sound := by
  simp only [Watching.processFileEvents, hlistens.listener, ho]
  cases o with
  | socket k =>
    by_cases hserver : k.server = true
    · simp only [if_pos hserver]
      exact ⟨_,_,rfl,h.serverEvents e hfresh revents⟩
    · simp only [if_neg hserver]
      exact ⟨_,_,rfl,h.socketEvents ho hahead hlistens revents e⟩
  | file f =>
    simp only [hlistens.file f rfl, Int.toNat_natCast, fileAt, ho, ok_bind]
    cases f.mListener with
    | some l => exact ⟨_,_,rfl,h⟩
    | none => exact ⟨_,_,rfl,h⟩

/-- An object whose node the iterator has passed is at no iterator, since it has no other node. -/
theorem Sound.passed (h : w.Sound) {t : Traversal} {pre rest : List ListenerNode}
    (ho : w.objs a = some o) (hlistens : Listens a o sel n) (hlist : w.mLists sel = pre ++ n :: rest)
    (ht : w.traversals sel = some t) (hrest : t.rest = some rest) : ¬w.Ahead a := by
  rintro ⟨sel',t',ht',n',rest',hrest',hl⟩
  obtain ⟨rest₁,hrest₁,hsuffix⟩ := h.walked sel' t' ht'
  obtain rfl := Option.some.inj (hrest'.symm.trans hrest₁)
  obtain ⟨o',ho',hlistens'⟩ := h.owner (hsuffix.subset List.mem_cons_self) hl
  obtain rfl := Option.some.inj (ho.symm.trans ho')
  obtain rfl := Option.some.inj (hlistens.selector.symm.trans hlistens'.selector)
  obtain rfl := Option.some.inj (ht.symm.trans ht')
  obtain rfl := Option.some.inj (hrest.symm.trans hrest')
  have honce := h.once sel
  rw [hlist, List.map_append, List.map_cons, List.map_cons] at honce
  have hnext := (List.nodup_cons.mp (List.nodup_append.mp honce).2.1).1
  exact hnext (List.mem_cons.mpr (.inl (hlistens.fd.trans hlistens'.fd.symm)))

/-- One turn of a traversal whose iterator stands in its list. -/
theorem Sound.visit (h : w.Sound) (sel : ℕ) (e : EventCalls) (hfresh : ∀ fd ∈ e.accept, w.Fresh fd) :
    ∃ out w', w.visit sel e = .ok (out,w') ∧ w'.Sound := by
  cases ht : w.traversals sel with
  | none => exact ⟨.none,w,by rw [Watching.visit, ht],h⟩
  | some t =>
    obtain ⟨rest,hrest,hsuffix⟩ := h.walked sel t ht
    cases rest with
    | nil =>
      refine ⟨.none,_,by simp only [Watching.visit, ht, hrest]; rfl,?_⟩
      refine ⟨h.old,h.apart,h.connected,h.listed,h.once,h.heard,?_⟩
      intro sel' t' ht'
      by_cases hsel : sel' = sel
      · subst hsel
        simp at ht'
      · exact h.walked sel' t' ((Function.update_of_ne hsel ..).symm.trans ht')
    | cons n rest =>
      have hadvance := h.advance ht hrest
      simp only [Watching.visit, ht, hrest]
      split
      · obtain ⟨pre,hlist⟩ := hsuffix
        obtain ⟨a,o,ho,hlistens⟩ := h.listed sel n (by rw [← hlist]; simp)
        have hpassed := hadvance.passed (t := { t with rest := some rest }) ho hlistens hlist.symm
          (Function.update_self ..) rfl
        have hdrop := hadvance.hangUp (t := { t with rest := some rest }) hlist.symm
          (Function.update_self ..) rfl t.revents
        refine hdrop.processFileEvents (a := a) (o := o) ?_ ?_ hlistens t.revents e ?_
        · rw [objs_hangUp]
          exact ho
        · unfold Ahead
          rw [traversals_hangUp]
          exact hpassed
        · intro fd hfd
          refine ⟨(hfresh fd hfd).1,?_⟩
          rw [objs_hangUp]
          exact (hfresh fd hfd).2
      · exact ⟨_,_,rfl,hadvance⟩

/-- An answer is acted on by a socket that is there. -/
theorem Sound.returned (h : w.Sound) (i : ℕ) (answer : Bool) (error : Option ℤ)
    (hlives : ∀ c, w.calls[i]? = some c → answer = false → ∃ k, w.objs c.socket = some (.socket k))
    (hahead : answer = false → ∀ c, w.calls[i]? = some c → ¬w.Ahead c.socket) :
    ∃ out w', w.returned i answer error = .ok (out,w') ∧ w'.Sound := by
  cases hi : w.calls[i]? with
  | none => exact ⟨.none,w,by rw [Watching.returned, hi],h⟩
  | some c =>
    have hwaiting := h.waiting (w.calls.eraseIdx i)
    cases answer with
    | true => exact ⟨.none,_,by rw [Watching.returned, hi]; rfl,hwaiting⟩
    | false =>
      obtain ⟨k,hk⟩ := hlives c hi rfl
      cases c with
      | handleClose s =>
        have hs : w.objs s = some (.socket k) := hk
        refine ⟨.none,_,?_,(hwaiting.close hs (hahead rfl _ hi) error).1⟩
        simp only [Watching.returned, hi, socketAt, hs, ok_bind, Bool.false_eq_true, if_false]
      | handleAccept s =>
        have hs : w.objs s = some (.socket k) := hk
        refine ⟨.none,_,?_,hwaiting.delete hs (hahead rfl _ hi) error⟩
        simp only [Watching.returned, hi, socketAt, hs, ok_bind, Bool.false_eq_true, if_false]

/-- A file that no selector has gives its descriptor up. -/
theorem Sound.closeFile (h : w.Sound) (ho : w.objs a = some (.file f)) (hquiet : w.Quiet a)
    (error : Option ℤ) : (w.closeFile a f error).2.Sound ∧ (w.closeFile a f error).2.Quiet a := by
  by_cases hfd : f.mFd = -1
  · rw [Watching.closeFile, if_neg (not_not_intro hfd)]
    exact ⟨h,hquiet⟩
  · obtain ⟨hput,hquiet'⟩ := (h.but (some a)).put_closed (p := .file { f with mFd := -1 }) hquiet ho rfl
      (by intro k hk; cases hk)
    rw [Watching.closeFile, if_pos hfd]
    refine ⟨hput.settle (objs_put ..) ?_,hquiet'⟩
    rintro sel ⟨k,hk,-⟩
    cases hk

theorem Sound.openFile (h : w.Sound) (ho : w.objs a = some (.file f)) (hquiet : w.Quiet a)
    {opened : Except ℤ ℤ} (hfresh : ∀ fd, opened = .ok fd → w.Fresh fd) :
    (w.openFile a f opened).2.Sound := by
  have hsettle {v : Watching} {f : File} (hput : v.SoundBut (some a) ∧ v.Quiet a)
      (hv : v.objs a = some (.file f)) : v.Sound := by
    apply hput.1.settle hv
    rintro sel ⟨k,hk,-⟩
    cases hk
  cases opened with
  | error e =>
    exact hsettle ((h.but (some a)).put_closed hquiet ho rfl (by intro k hk; cases hk)) (objs_put ..)
  | ok fd =>
    refine hsettle ((h.but (some a)).put (p := .file { f with mFd := fd }) hquiet ho ?_
      (by intro k hk; cases hk)) (objs_put ..)
    exact fun b o hb heq _ => absurd heq ((hfresh fd rfl).2 b o hb)

theorem Sound.newFile (h : w.Sound) (hfd : w.Fresh fd ∨ fd = -1) : (w.newFile fd).Sound := by
  refine Sound.alloc (o := .file ⟨fd,none,none⟩) h hfd ?_ ?_
  · rintro sel ⟨k,hk,-⟩
    cases hk
  · intro k hk
    cases hk

theorem Sound.connectTimeout (h : w.Sound) (ho : w.objs s = some (.socket k)) {c : ConnectCalls}
    (hfails : k.mFd = -1 → c.getFlags = false) : (w.connectTimeout s k c).2.Sound := by
  cases hget : c.getFlags with
  | false =>
    rw [Watching.connectTimeout, if_pos hget]
    exact h
  | true =>
    have hfd : k.mFd ≠ -1 := fun hfd => Bool.false_ne_true ((hfails hfd).symm.trans hget)
    have hconnected := h.setConnected ho hfd (.inl rfl)
    rw [Watching.connectTimeout]
    iterate 8
      split
      · exact h
    split
    · exact hconnected
    · exact h

theorem Sound.connectAsync (h : w.Sound) (ho : w.objs s = some (.socket k)) {c : ConnectCalls}
    (hfails : k.mFd = -1 → c.getFlags = false) : (w.connectAsync s k c).2.Sound := by
  cases hget : c.getFlags with
  | false =>
    rw [Watching.connectAsync, if_pos hget]
    exact h
  | true =>
    have hfd : k.mFd ≠ -1 := fun hfd => Bool.false_ne_true ((hfails hfd).symm.trans hget)
    -- a socket that is listened to already may be asked about its output from now on
    have hwaits : (w.put s (.socket { k with mConnectedAsync := true })).Sound := by
      apply h.write ho
      · intro sel n _ hlistens
        obtain ⟨hconnected,hlistener,hevents⟩ := hlistens.socket k rfl
        refine ⟨hlistens.listener,hlistens.fd,hlistens.opened,hlistens.selector,?_,?_⟩
        · intro k' hk'
          cases hk'
          exact ⟨hconnected,hlistener,hevents.imp_right fun hout => ⟨hout.1,rfl⟩⟩
        · intro f hf
          cases hf
      · exact fun b o hb heq hopen => h.apart b s o _ hb ho heq (heq ▸ hopen)
      · intro k' hk' _
        cases hk'
        exact hfd
      · rintro - sel ⟨k',hk',hconnected,hsel,hl⟩
        cases hk'
        exact ⟨k,rfl,hconnected,hsel,hl⟩
    have hconnected := hwaits.setConnected (objs_put ..) hfd (.inr ⟨(rfl : pollIn ||| pollOut = _),rfl⟩)
    rw [Watching.connectAsync]
    iterate 3
      split
      · exact h
    exact hconnected

/-- A call is made of what is there, and keeps all sound. -/
theorem Sound.step {op : WatchingOp} (h : w.Sound) (hadm : w.Admits op) (hok : w.Careful op) :
    ∃ out w', Watching.step w op = .ok (out,w') ∧ w'.Sound := by
  cases op with
  | newSocket sock_stream server fd =>
    refine ⟨_,_,rfl,h.alloc (.inl hadm) ?_ ?_⟩
    · rintro sel ⟨k,hk,hconnected,-⟩
      cases hk
      cases hconnected
    · intro k hk hconnected
      cases hk
      cases hconnected
  | connect s res =>
    obtain ⟨k,hk,hfails⟩ := hadm
    refine ⟨_,_,by simp only [Watching.step, socketAt, hk, ok_bind]; rfl,?_⟩
    by_cases hres : res = 0
    · rw [if_pos hres]
      exact h.setConnected hk (fun hfd => hfails hfd hres) (.inl rfl)
    · rw [if_neg hres]
      exact h
  | connectTimeout s calls =>
    obtain ⟨k,hk,hfails⟩ := hadm
    exact ⟨_,_,by simp only [Watching.step, socketAt, hk, ok_bind]; rfl,h.connectTimeout hk hfails⟩
  | connectAsync s calls =>
    obtain ⟨k,hk,hfails⟩ := hadm
    exact ⟨_,_,by simp only [Watching.step, socketAt, hk, ok_bind]; rfl,h.connectAsync hk hfails⟩
  | bind s res =>
    obtain ⟨k,hk,hfails⟩ := hadm
    refine ⟨_,_,by simp only [Watching.step, socketAt, hk, ok_bind]; rfl,?_⟩
    by_cases hres : res = 0 ∧ k.mSockStream = false
    · rw [if_pos hres]
      exact h.setConnected hk (fun hfd => hfails hfd hres.1) (.inl rfl)
    · rw [if_neg hres]
      exact h
  | listen s res =>
    obtain ⟨k,hk,hfails⟩ := hadm
    refine ⟨_,_,by simp only [Watching.step, socketAt, hk, ok_bind]; rfl,?_⟩
    by_cases hres : res = 0
    · rw [if_pos hres]
      exact h.setConnected hk (fun hfd => hfails hfd hres) (.inl rfl)
    · rw [if_neg hres]
      exact h
  | accept s fd =>
    obtain ⟨⟨k,hk⟩,hfresh⟩ := hadm
    refine ⟨_,_,by simp only [Watching.step, socketAt, hk, ok_bind]; rfl,?_⟩
    cases fd with
    | none => exact h
    | some fd => exact h.newAccepted (hfresh fd rfl)
  | setSelector s listener selector =>
    obtain ⟨k,hk⟩ := hadm
    exact ⟨_,_,by simp only [Watching.step, socketAt, hk, ok_bind]; rfl,
      h.setSelector hk hok listener selector⟩
  | close s error =>
    obtain ⟨k,hk⟩ := hadm
    exact ⟨_,_,by simp only [Watching.step, socketAt, hk, ok_bind]; rfl,(h.close hk hok error).1⟩
  | delete s error =>
    obtain ⟨k,hk⟩ := hadm
    exact ⟨_,_,by simp only [Watching.step, socketAt, hk, ok_bind]; rfl,h.delete hk hok error⟩
  | newFile => exact ⟨_,_,rfl,h.newFile (.inr rfl)⟩
  | pipe fd fd' =>
    obtain ⟨hne,hfresh,hfresh'⟩ := hadm
    refine ⟨_,_,rfl,(h.newFile (.inl hfresh)).newFile (.inl ⟨hfresh'.1,?_⟩)⟩
    intro a o ho
    by_cases ha : a = w.made
    · subst ha
      rw [Watching.newFile, objs_alloc] at ho
      obtain rfl := Option.some.inj ho
      exact hne
    · rw [Watching.newFile, objs_alloc_of_ne _ ha] at ho
      exact hfresh'.2 a o ho
  | openFile f fd =>
    obtain ⟨⟨x,hx⟩,hfresh⟩ := hadm
    exact ⟨_,_,by simp only [Watching.step, fileAt, hx, ok_bind]; rfl,h.openFile hx hok hfresh⟩
  | setFileSelector f listener selector events =>
    obtain ⟨x,hx⟩ := hadm
    exact ⟨_,_,by simp only [Watching.step, fileAt, hx, ok_bind]; rfl,
      h.setFileSelector hx hok listener selector events⟩
  | closeFile f error =>
    obtain ⟨x,hx⟩ := hadm
    exact ⟨_,_,by simp only [Watching.step, fileAt, hx, ok_bind]; rfl,(h.closeFile hx hok error).1⟩
  | deleteFile f error =>
    obtain ⟨x,hx⟩ := hadm
    obtain ⟨hclosed,hquiet⟩ := h.closeFile hx hok error
    exact ⟨_,_,by simp only [Watching.step, fileAt, hx, ok_bind]; rfl,hclosed.free hquiet⟩
  | callListeners sel fd revents => exact ⟨_,_,rfl,h.callListeners sel fd revents⟩
  | visit sel calls => exact h.visit sel calls hadm
  | returned i answer error => exact h.returned i answer error hadm hok

/-- What a selector has keeps its descriptor. -/
theorem Sound.quiet_of_changed {w' : Watching} (h : w.Sound) (h' : w'.Sound) (hlists : w'.mLists = w.mLists)
    (ho : w.objs a = some o) (hfd : ∀ p, w'.objs a = some p → o.mFd = p.mFd → o.mFd = -1) : w.Quiet a := by
  intro sel n hn hl
  obtain ⟨o',ho',hlistens⟩ := h.owner hn hl
  obtain rfl := Option.some.inj (ho.symm.trans ho')
  rw [← hlists] at hn
  obtain ⟨p,hp,hlistens'⟩ := h'.owner hn hl
  exact hlistens.opened (hfd p hp (hlistens.fd.symm.trans hlistens'.fd))

/-- The node at which the iterator of a traversal stands has been deleted. -/
def Stuck (w : Watching) : Prop := ∃ sel, ∃ t ∈ w.traversals sel, t.rest = none

theorem Sound.not_stuck (h : w.Sound) : ¬w.Stuck := by
  rintro ⟨sel,t,ht,hnone⟩
  obtain ⟨rest,hrest,-⟩ := h.walked sel t ht
  exact Option.some_ne_none rest (hrest.symm.trans hnone)

theorem Stuck.addListener (h : w.Stuck) (sel : ℕ) (fd : ℤ) (events : BitVec 16) (a : ℕ) (pd : ℤ) :
    (w.addListener sel fd events a pd).Stuck := by
  obtain ⟨sel',t,ht,hnone⟩ := h
  by_cases hsel : sel' = sel
  · subst hsel
    refine ⟨sel',t.push ⟨fd,events,some a,pd⟩,?_,?_⟩
    · simp only [Watching.addListener, Function.update_self, Option.mem_def.mp ht, Option.map_some,
        Option.mem_def]
    · rw [Traversal.push, hnone]
      exact hnone
  · refine ⟨sel',t,?_,hnone⟩
    simpa only [Watching.addListener, Function.update_of_ne hsel] using ht

/-- Who leaves a selector where a traversal goes on to it leaves the traversal without its node. -/
theorem Sound.stuck_of_ahead (h : w.Sound) (ho : w.objs a = some o) (hahead : w.Ahead a) :
    ∃ sel n, o.mSelector = some sel ∧ Listens a o sel n ∧ (w.removeListener sel o.mFd).Stuck := by
  obtain ⟨sel,t,ht,n,rest,hrest,hl⟩ := hahead
  obtain ⟨rest',hrest',hsuffix⟩ := h.walked sel t ht
  obtain rfl := Option.some.inj (hrest.symm.trans hrest')
  obtain ⟨o',ho',hlistens⟩ := h.owner (hsuffix.subset List.mem_cons_self) hl
  obtain rfl := Option.some.inj (ho.symm.trans ho')
  refine ⟨sel,n,hlistens.selector,hlistens,sel,t.remove (listenerNode o.mFd none),?_,?_⟩
  · simp only [removeListener, Function.update_self, Option.mem_def.mp ht, Option.map_some, Option.mem_def]
  · have hmatch : n.matches (listenerNode o.mFd none) = true := by
      rw [Selector.matches_any]
      exact decide_eq_true hlistens.fd
    simp [Traversal.remove, hrest, hmatch]

theorem Sound.stuck_close (h : w.Sound) (ho : w.objs s = some (.socket k)) (hahead : w.Ahead s)
    (error : Option ℤ) : (w.close s k error).2.Stuck := by
  obtain ⟨sel,n,hsel,hlistens,hstuck⟩ := h.stuck_of_ahead ho hahead
  obtain ⟨hconnected,hlistener,-⟩ := hlistens.socket k rfl
  obtain ⟨l,hl⟩ := Option.ne_none_iff_exists'.mp hlistener
  have hsel : k.mSelector = some sel := hsel
  have hfd : k.mFd ≠ -1 := hlistens.opened
  simp only [Watching.close, if_pos hfd, Watching.setConnected, hconnected, Bool.true_eq_false, if_false,
    hsel, hl, Bool.false_eq_true]
  exact hstuck

theorem Sound.stuck_setSelector (h : w.Sound) (ho : w.objs s = some (.socket k)) (hahead : w.Ahead s)
    (listener selector : Option ℕ) : (w.setSelector s k listener selector).Stuck := by
  obtain ⟨sel,n,hsel,hlistens,hstuck⟩ := h.stuck_of_ahead ho hahead
  have hsel : k.mSelector = some sel := hsel
  simp only [Watching.setSelector, (hlistens.socket k rfl).1, if_true, hsel, Watching.leave]
  split
  · exact Stuck.addListener hstuck ..
  · exact hstuck

theorem Sound.stuck_setFileSelector (h : w.Sound) (ho : w.objs a = some (.file f)) (hahead : w.Ahead a)
    (listener selector : Option ℕ) (events : BitVec 16) :
    (w.setFileSelector a f listener selector events).Stuck := by
  obtain ⟨sel,n,hsel,hlistens,hstuck⟩ := h.stuck_of_ahead ho hahead
  have hsel : f.mSelector = some sel := hsel
  have hfd : f.mFd ≠ -1 := hlistens.opened
  simp only [Watching.setFileSelector, if_pos hfd, hsel, Watching.leave]
  cases selector with
  | none => exact hstuck
  | some sel' => exact Stuck.addListener hstuck ..

/-- A call after which all is sound has taken its descriptor from no file that a selector has, and no
node from where a traversal goes on. -/
theorem careful_of_sound {op : WatchingOp} {out : Outcome} {w' : Watching} (h : w.Sound)
    (hadm : w.Admits op) (hstep : Watching.step w op = .ok (out,w')) (h' : w'.Sound) : w.Careful op := by
  cases op with
  | openFile f fd =>
    obtain ⟨⟨x,hx⟩,hfresh⟩ := hadm
    simp only [Watching.step, fileAt, hx, ok_bind] at hstep
    cases fd with
    | error e =>
      obtain ⟨-,rfl⟩ := Prod.mk.inj (Except.ok.inj hstep)
      apply h.quiet_of_changed h' rfl hx
      intro p hp hfd
      obtain rfl := Option.some.inj ((objs_put ..).symm.trans hp)
      exact hfd
    | ok fd =>
      obtain ⟨-,rfl⟩ := Prod.mk.inj (Except.ok.inj hstep)
      apply h.quiet_of_changed h' rfl hx
      intro p hp hfd
      obtain rfl := Option.some.inj ((objs_put ..).symm.trans hp)
      exact absurd hfd ((hfresh fd rfl).2 f _ hx)
  | closeFile f error =>
    obtain ⟨x,hx⟩ := hadm
    by_cases hfd : x.mFd = -1
    · exact h.quiet_closed hx hfd
    · simp only [Watching.step, fileAt, hx, ok_bind, Watching.closeFile, if_pos hfd] at hstep
      obtain ⟨-,rfl⟩ := Prod.mk.inj (Except.ok.inj hstep)
      apply h.quiet_of_changed h' rfl hx
      intro p hp hfd'
      obtain rfl := Option.some.inj ((objs_put ..).symm.trans hp)
      exact hfd'
  | deleteFile f error =>
    obtain ⟨x,hx⟩ := hadm
    simp only [Watching.step, fileAt, hx, ok_bind] at hstep
    obtain ⟨-,rfl⟩ := Prod.mk.inj (Except.ok.inj hstep)
    have hlists : ((w.closeFile f x error).2.free f).mLists = w.mLists := by
      rw [Watching.closeFile]
      split <;> rfl
    apply h.quiet_of_changed h' hlists hx
    intro p hp
    rw [objs_free] at hp
    cases hp
  | setSelector s listener selector =>
    obtain ⟨k,hk⟩ := hadm
    simp only [Watching.step, socketAt, hk, ok_bind] at hstep
    obtain ⟨-,rfl⟩ := Prod.mk.inj (Except.ok.inj hstep)
    exact fun hahead => h'.not_stuck (h.stuck_setSelector hk hahead listener selector)
  | close s error =>
    obtain ⟨k,hk⟩ := hadm
    simp only [Watching.step, socketAt, hk, ok_bind] at hstep
    obtain ⟨-,rfl⟩ := Prod.mk.inj (Except.ok.inj hstep)
    exact fun hahead => h'.not_stuck (h.stuck_close hk hahead error)
  | delete s error =>
    obtain ⟨k,hk⟩ := hadm
    simp only [Watching.step, socketAt, hk, ok_bind] at hstep
    obtain ⟨-,rfl⟩ := Prod.mk.inj (Except.ok.inj hstep)
    exact fun hahead => h'.not_stuck (h.stuck_close hk hahead error)
  | setFileSelector f listener selector events =>
    obtain ⟨x,hx⟩ := hadm
    simp only [Watching.step, fileAt, hx, ok_bind] at hstep
    obtain ⟨-,rfl⟩ := Prod.mk.inj (Except.ok.inj hstep)
    exact fun hahead => h'.not_stuck (h.stuck_setFileSelector hx hahead listener selector events)
  | returned i answer error =>
    rintro rfl c hc hahead
    obtain ⟨k,hk⟩ := hadm c hc rfl
    have hstuck := (h.waiting (w.calls.eraseIdx i)).stuck_close hk hahead error
    cases c with
    | handleClose s =>
      have hs : w.objs s = some (.socket k) := hk
      simp only [Watching.step, Watching.returned, hc, socketAt, hs, ok_bind, Bool.false_eq_true,
        if_false] at hstep
      obtain ⟨-,rfl⟩ := Prod.mk.inj (Except.ok.inj hstep)
      exact h'.not_stuck hstuck
    | handleAccept s =>
      have hs : w.objs s = some (.socket k) := hk
      simp only [Watching.step, Watching.returned, hc, socketAt, hs, ok_bind, Bool.false_eq_true,
        if_false] at hstep
      obtain ⟨-,rfl⟩ := Prod.mk.inj (Except.ok.inj hstep)
      exact h'.not_stuck hstuck
  | _ => trivial

/-- Whatever is done with sockets and files, in whatever order their listeners are called and answer,
no selector calls what has been deleted or has another descriptor, the iterator of a traversal stands
at a node of its list or at the end, a socket that has its connection, a selector and a listener is
listened to until a selector drops it, and none is asked about its output but while it waits for the
connection: in the runs in which no file is opened, closed or deleted while a selector has it and
nothing is taken out of its selector where a traversal goes on to it, and in no others. -/
theorem sound_iff_careful (ops : List WatchingOp) (ha : Guarded Watching.step Admits start ops) :
    Throughout Watching.step Sound start ops ↔ Guarded Watching.step Careful start ops := by
  apply throughout_iff_of_admitted Admits Careful (fun _ h => h) _ _ start_sound ops ha
  · exact fun _ _ h hadm hok => h.step hadm hok
  · exact fun _ _ _ _ h hadm hstep h' => careful_of_sound h hadm hstep h'

/-- Three sockets are listened to, and the other side of the first one hangs up. Its listener deletes the
third one and leaves the first one to itself, and the traversal goes on to the second one. A file is made
and closed. -/
def hangUpOps : List WatchingOp :=
  [.newSocket true false 3,.connect 0 0,.setSelector 0 (some 1) (some 0),
    .newSocket true false 4,.connect 1 0,.setSelector 1 (some 1) (some 0),
    .newSocket true false 5,.connect 2 0,.setSelector 2 (some 1) (some 0),
    .callListeners 0 3 (pollIn ||| pollHup),.visit 0 ⟨0,0,none,none⟩,.delete 2 none,.returned 0 false none,
    .visit 0 ⟨0,0,none,none⟩,.visit 0 ⟨0,0,none,none⟩,.delete 0 none,.newFile,.closeFile 3 none]

theorem sound_iff_careful_hangUp :
    Throughout Watching.step Sound start hangUpOps ↔ Guarded Watching.step Careful start hangUpOps := by
  apply sound_iff_careful
  refine .cons rfl ⟨by decide,fun a o ho => by cases ho⟩ ?_
  refine .cons rfl ⟨_,rfl,fun hfd => by cases hfd⟩ ?_
  refine .cons rfl ⟨_,rfl⟩ ?_
  refine .cons rfl ⟨by decide,?_⟩ ?_
  · rintro (_ | a) o ho
    · obtain rfl := Option.some.inj ho
      exact (by decide : (3 : ℤ) ≠ 4)
    · exact absurd (show none = some o from ho) (Option.some_ne_none o).symm
  refine .cons rfl ⟨_,rfl,fun hfd => by cases hfd⟩ ?_
  refine .cons rfl ⟨_,rfl⟩ ?_
  refine .cons rfl ⟨by decide,?_⟩ ?_
  · rintro (_ | _ | a) o ho
    · obtain rfl := Option.some.inj ho
      exact (by decide : (3 : ℤ) ≠ 5)
    · obtain rfl := Option.some.inj ho
      exact (by decide : (4 : ℤ) ≠ 5)
    · exact absurd (show none = some o from ho) (Option.some_ne_none o).symm
  refine .cons rfl ⟨_,rfl,fun hfd => by cases hfd⟩ ?_
  refine .cons rfl ⟨_,rfl⟩ ?_
  refine .cons rfl rfl ?_
  refine .cons rfl (fun fd hfd => by cases hfd) ?_
  refine .cons rfl ⟨_,rfl⟩ ?_
  refine .cons rfl ?_ ?_
  · intro c hc _
    obtain rfl := Option.some.inj hc
    exact ⟨_,rfl⟩
  refine .cons rfl (fun fd hfd => by cases hfd) ?_
  refine .cons rfl (fun fd hfd => by cases hfd) ?_
  refine .cons rfl ⟨_,rfl⟩ ?_
  refine .cons rfl trivial ?_
  exact .cons rfl ⟨_,rfl⟩ trivial

/-- The listener of the first of two sockets deletes the second one, which the traversal goes on to. -/
def deletesNextOps : List WatchingOp :=
  [.newSocket true false 3,.connect 0 0,.setSelector 0 (some 1) (some 0),
    .newSocket true false 4,.connect 1 0,.setSelector 1 (some 1) (some 0),
    .callListeners 0 3 pollIn,.visit 0 ⟨0,1,none,none⟩,.delete 1 none,.visit 0 ⟨0,0,none,none⟩]

example : run Watching.step start deletesNextOps = .error .useAfterFree := rfl

end Watching

end JhCommon

import Xv6.Crash.Model

/-! # Buffers that are not logged

A call can leave changes in a buffer that it does not pass to `log_write`. The log never writes such
a buffer: its steps are those that it takes when the buffer is not in the cache at all.
-/

namespace Xv6.Crash

open Function Lib

variable {g : Log.Geometry} {img : Nat → Block} {l l' : Log.State}
    {c : Nat → Option Block} {b : Nat}

def overlay (l : Log.State) (c : Nat → Option Block) : Log.State := { l with cache := c }

/-- A block whose buffer may have been changed without `log_write`. -/
def Loose (g : Log.Geometry) (l : Log.State) (b : Nat) : Prop :=
  g.Home b ∧ b ∉ l.lh ∧ l.phase.booting = false

/-- The buffers `c` are those of `l` but for some that the log does not write. -/
def Agrees (g : Log.Geometry) (l : Log.State) (c : Nat → Option Block) : Prop :=
  ∀ b, c b = l.cache b ∨ Loose g l b

/-- What a step of the log makes of the buffers `c`: each gives the data that it gave, or those
of `l'`. -/
structure Follows (g : Log.Geometry) (l : Log.State) (c : Nat → Option Block) (l' s' : Log.State) :
    Prop where
  rest : s' = overlay l' s'.cache
  agrees : Agrees g l' s'.cache
  reads : ∀ b, s'.bread b = (overlay l c).bread b ∨ s'.bread b = l'.bread b

theorem overlay_bread (h : c b = l.cache b) : (overlay l c).bread b = l.bread b := by
  change (c b).getD (l.disk b) = (l.cache b).getD (l.disk b)
  rw [h]

theorem Agrees.bread (h : Agrees g l c) (hb : ¬ Loose g l b) : (overlay l c).bread b = l.bread b :=
  overlay_bread ((h b).resolve_right hb)

theorem Follows.set {v w : Option Block} (h : Agrees g l c)
    (hl : l'.cache = update l.cache b w) (hdisk : ∀ x, x ≠ b → l'.disk x = l.disk x)
    (hloose : ∀ x, x ≠ b → Loose g l x → Loose g l' x)
    (hb : v = w ∨ Loose g l' b ∧ v.getD (l'.disk b) = (overlay l c).bread b) :
    Follows g l c l' (overlay l' (update c b v)) := by
  have hself : v = w → update c b v b = l'.cache b := by
    intro hvw
    rw [hl, hvw, update_self, update_self]
  refine ⟨rfl, fun x => ?_, fun x => ?_⟩ <;> by_cases hx : x = b
  · subst hx
    exact hb.imp hself And.left
  · refine (h x).imp (fun heq => ?_) (hloose x hx)
    rw [hl, update_of_ne hx, ← heq]
    exact update_of_ne hx _ _
  · subst hx
    refine hb.symm.imp (fun heq => ?_) fun hvw => overlay_bread (hself hvw)
    rw [← heq.2]
    exact congrArg (Option.getD · _) (update_self _ _ _)
  · left
    change (update c b v x).getD (l'.disk x) = (c x).getD (l.disk x)
    rw [update_of_ne hx, hdisk x hx]

theorem Follows.write {v : Option Block} (h : Agrees g l c)
    (hl : l'.cache = update l.cache b v) (hdisk : ∀ x, x ≠ b → l'.disk x = l.disk x)
    (hlh : ∀ x ∈ l'.lh, x ∈ l.lh ∨ x = b) (hboot : l'.phase.booting = false) :
    Follows g l c l' (overlay l' (update c b v)) :=
  .set h hl hdisk (fun x hx hloose => ⟨hloose.1, fun hmem => (hlh x hmem).elim hloose.2.1 hx,
    hboot⟩) (.inl rfl)

theorem Follows.keep (h : Agrees g l c) (hl : l'.cache = l.cache) (hdisk : l'.disk = l.disk)
    (hlh : l'.lh = l.lh) (hboot : l'.phase.booting = false) : Follows g l c l' (overlay l' c) := by
  refine ⟨rfl, fun x => ?_, fun x => .inl ?_⟩
  · rw [hl]
    exact (h x).imp_right fun hloose => ⟨hloose.1, hlh ▸ hloose.2.1, hboot⟩
  · change (c x).getD (l'.disk x) = (c x).getD (l.disk x)
    rw [hdisk]

theorem Agrees.writeHead (h : Agrees g l c) : (overlay l c).writeHead g =
    overlay (l.writeHead g) (update c g.start
      (some (Log.encodeHead l.lh (l.bread g.start)))) := by
  unfold Log.State.writeHead
  rw [h.bread fun hloose => hloose.1 g.inLog_start]
  rfl

theorem Agrees.writeLogEntry {tail : Nat} (h : Agrees g l c) (hb : b ∈ l.lh) :
    (overlay l c).writeLogEntry g tail b =
    overlay (l.writeLogEntry g tail b)
    (update c (g.start + tail + 1) (some (l.bread b))) := by
  unfold Log.State.writeLogEntry
  rw [h.bread fun hloose => hloose.2.1 hb]
  rfl

theorem Agrees.installEntry {tail : Nat} (h : Agrees g l c) (hb : g.InLog (g.start + tail + 1)) :
    (overlay l c).installEntry g tail b =
      overlay (l.installEntry g tail b)
      (update c b (some (l.bread (g.start + tail + 1)))) := by
  unfold Log.State.installEntry
  rw [h.bread fun hloose => hloose.1 hb]
  rfl

/-! ## Steps of the log -/

theorem Agrees.advance (h : Agrees g l c) (hinv : Log.Inv g img l)
    (hboot : l.phase.booting = false) :
    Outcome.Rel (Follows g l c) (Log.advance g l) (Log.advance g (overlay l c)) := by
  have hphase : (overlay l c).phase = l.phase := rfl
  have hlh : (overlay l c).lh = l.lh := rfl
  unfold Log.advance
  rw [hphase, hlh]
  cases hph : l.phase with
  | idle => exact .blocked
  | commit =>
    exact .ite (fun _ => .next (.keep h rfl rfl rfl rfl)) fun _ => .next (.keep h rfl rfl rfl rfl)
  | writeLog tail =>
    dsimp only
    cases hb : l.lh[tail]? with
    | none =>
      dsimp only
      rw [h.writeHead]
      exact .next (.write h rfl (fun x hx => update_of_ne hx _ _)
        (fun _ hx => .inl hx) rfl)
    | some b =>
      dsimp only
      rw [h.writeLogEntry (List.mem_of_getElem? hb)]
      exact .next (.write h rfl (fun x hx => update_of_ne hx _ _)
        (fun _ hx => .inl hx) rfl)
  | install tail =>
    dsimp only
    cases hb : l.lh[tail]? with
    | none =>
      have hnil : Agrees g { l with lh := [], phase := .install tail } c := fun x =>
        (h x).imp_right fun hloose => ⟨hloose.1, List.not_mem_nil, rfl⟩
      change Outcome.Rel _ _ (.next
        { Log.State.writeHead g (overlay { l with lh := [], phase := .install tail } c) with
          phase := .committed
          settled := l.hist.length
          returned := l.returned + 1 })
      rw [hnil.writeHead]
      exact .next (.write h rfl (fun x hx => update_of_ne hx _ _)
        (fun _ hx => by cases hx) rfl)
    | some b =>
      dsimp only
      rw [h.installEntry (hinv.valid.inLog (List.getElem?_eq_some_iff.mp hb).1)]
      exact .next (.write h rfl (fun x hx => update_of_ne hx _ _)
        (fun _ hx => .inl hx) rfl)
  | committed => exact .next (.keep h rfl rfl rfl rfl)
  | boot | recover tail =>
    rw [hph] at hboot
    cases hboot

theorem Agrees.step (h : Agrees g l c) (hinv : Log.Inv g img l) (a : Log.Action) :
    Outcome.Rel (Follows g l c) (Log.step g l a) (Log.step g (overlay l c) a) := by
  by_cases hboot : l.phase.booting = false
  swap
  · obtain rfl : c = l.cache := funext fun b => (h b).resolve_right fun hloose => hboot hloose.2.2
    change Outcome.Rel _ (Log.step g l a) (Log.step g l a)
    cases Log.step g l a with
    | blocked => exact .blocked
    | fault f => exact .fault f
    | next l' => exact .next ⟨rfl, fun b => .inl rfl, fun b => .inr rfl⟩
  cases a with
  | advance => exact h.advance hinv hboot
  | beginOp =>
    exact .ite (fun _ => .blocked) fun _ => .ite (fun _ => .blocked) fun _ =>
        .ite (fun _ => .blocked) fun _ =>
      .next (.keep h rfl rfl rfl hboot)
  | logWrite op b v =>
    exact .ite (fun _ => .blocked) fun _ => .ite (fun _ => .fault _) fun _ =>
        .ite (fun _ => .fault _) fun _ =>
      .next (.write h rfl (fun _ _ => rfl) (fun x hx => Log.mem_absorb.mp hx) hboot)
  | endOp op =>
    exact .ite (fun _ => .blocked) fun _ => .ite (fun _ => .fault _) fun _ =>
      .ite (fun _ => .next (.keep h rfl rfl rfl rfl)) fun _ => .next (.keep h rfl rfl rfl hboot)
  | fill b =>
    refine .next (.set h rfl (fun _ _ => rfl) (fun _ _ hloose => hloose) ?_)
    exact (h b).imp (fun heq => congrArg some (overlay_bread heq)) fun hloose => ⟨hloose, rfl⟩
  | recycle b =>
    exact .ite (fun _ => .blocked) fun _ =>
      .next (.write h rfl (fun _ _ => rfl) (fun _ hx => .inl hx) hboot)
  | crash => exact .next ⟨rfl, fun b => .inl rfl, fun b => .inr rfl⟩

end Xv6.Crash

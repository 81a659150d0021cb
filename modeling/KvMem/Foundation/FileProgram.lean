import KvMem.Foundation.CrashStore

/-! # Programs of file steps and a crash logic for them

A program performs elementary file steps one by one, is told whether each
succeeded, and may look at the directory in between. `Safe` is its weakest
precondition under interference: between any two steps other threads may change
the files this program does not keep, and a crash condition must hold at every
point in between. Faults are allowed exactly for the operations a fault predicate
names. `ProgStep` is one step of a program among others.
-/

namespace KvMem.CrashStore

variable {ν α ρ τ : Type}

/-- A straight-line file program with explicit failure branches. -/
inductive FileProg (ν α ρ : Type) where
  | ret (r : ρ)
  | look (k : FS ν α → FileProg ν α ρ)
  | op (o : Op ν α) (k : Bool → FileProg ν α ρ)

namespace FileProg

def bind : FileProg ν α ρ → (ρ → FileProg ν α τ) → FileProg ν α τ
  | .ret r, f => f r
  | .look k, f => .look fun fs => (k fs).bind f
  | .op o k, f => .op o fun b => (k b).bind f

instance : Monad (FileProg ν α) where
  pure := .ret
  bind := .bind

@[simp] theorem pure_eq (r : ρ) : (pure r : FileProg ν α ρ) = .ret r := rfl

@[simp] theorem ret_bind (r : ρ) (f : ρ → FileProg ν α τ) : (FileProg.ret r >>= f) = f r := rfl

/-- Every way the program can end satisfies `P`, whatever its steps answer. -/
def Ends (P : ρ → Prop) : FileProg ν α ρ → Prop
  | .ret r => P r
  | .look k => ∀ fs, Ends P (k fs)
  | .op _ k => ∀ b, Ends P (k b)

theorem Ends.bind {P : ρ → Prop} {P' : τ → Prop} {p : FileProg ν α ρ} {f : ρ → FileProg ν α τ}
    (h : Ends P p) (hf : ∀ r, P r → Ends P' (f r)) : Ends P' (p >>= f) := by
  induction p with
  | ret r => exact hf r h
  | look k ih => exact fun fs => ih fs (h fs)
  | op o k ih => exact fun b => ih b (h b)

theorem Ends.mono {P P' : ρ → Prop} {p : FileProg ν α ρ} (h : Ends P p)
    (hp : ∀ r, P r → P' r) : Ends P' p := by
  induction p with
  | ret r => exact hp r h
  | look k ih => exact fun fs => ih fs (h fs)
  | op o k ih => exact fun b => ih b (h b)

theorem ends_true (p : FileProg ν α ρ) : Ends (fun _ => True) p := by
  induction p with
  | ret r => trivial
  | look k ih => exact fun fs => ih fs
  | op o k ih => exact fun b => ih b

def Steps (P : Op ν α → Prop) : FileProg ν α ρ → Prop
  | .ret _ => True
  | .look k => ∀ fs, Steps P (k fs)
  | .op o k => P o ∧ ∀ b, Steps P (k b)

def EndsOk (P : ρ → Prop) : FileProg ν α ρ → Prop
  | .ret r => P r
  | .look k => ∀ fs, EndsOk P (k fs)
  | .op _ k => EndsOk P (k true)

/-- A run of the program, with the steps it has performed and its result. Other threads
may change the directory in between, so a look may see anything. -/
inductive Trace : FileProg ν α ρ → List (Op ν α) → ρ → Prop where
  | ret (r : ρ) : Trace (.ret r) [] r
  | look {k : FS ν α → FileProg ν α ρ} {os : List (Op ν α)} {r : ρ} (fs : FS ν α)
      (h : Trace (k fs) os r) : Trace (.look k) os r
  | op {o : Op ν α} {k : Bool → FileProg ν α ρ} {os : List (Op ν α)} {r : ρ} (b : Bool)
      (h : Trace (k b) os r) : Trace (.op o k) (o :: os) r

theorem Ends.trace {P : ρ → Prop} {p : FileProg ν α ρ} {os : List (Op ν α)} {r : ρ}
    (h : Ends P p) (ht : Trace p os r) : P r := by
  induction ht with
  | ret r => exact h
  | look fs _ ih => exact ih (h fs)
  | op b _ ih => exact ih (h b)

end FileProg

variable [DecidableEq ν]

def runOk : FileProg ν α ρ → FS ν α → FS ν α × ρ
  | .ret r, fs => (fs, r)
  | .look k, fs => runOk (k fs) fs
  | .op o k, fs => runOk (k true) (o.exec fs)

@[simp] theorem runOk_ret (r : ρ) (fs : FS ν α) : runOk (.ret r) fs = (fs, r) := rfl

@[simp] theorem runOk_look (k : FS ν α → FileProg ν α ρ) (fs : FS ν α) :
    runOk (.look k) fs = runOk (k fs) fs := rfl

@[simp] theorem runOk_op (o : Op ν α) (k : Bool → FileProg ν α ρ) (fs : FS ν α) :
    runOk (.op o k) fs = runOk (k true) (o.exec fs) := rfl

theorem runOk_bind (p : FileProg ν α ρ) (f : ρ → FileProg ν α τ) (fs : FS ν α) :
    runOk (p >>= f) fs = runOk (f (runOk p fs).2) (runOk p fs).1 := by
  induction p generalizing fs with
  | ret r => rfl
  | look k ih => exact ih fs fs
  | op o k ih => exact ih true (o.exec fs)

theorem runOk_read {n : ν} {p : FileProg ν α ρ} (h : p.Steps fun o => ¬ o.Touches n)
    (fs : FS ν α) : (runOk p fs).1.read n = fs.read n := by
  induction p generalizing fs with
  | ret r => rfl
  | look k ih => exact ih fs (h fs) fs
  | op o k ih =>
    have hrest := ih true (h.2 true) (o.exec fs)
    rw [runOk_op, hrest, Op.exec_read o fs h.1]

/-- What a program may rely on and must guarantee. -/
structure Rely (ν α : Type) where
  fault : Op ν α → Prop
  /-- What the program may do, and in which state. -/
  may : Op ν α → FS ν α → Prop
  /-- The names no other thread changes while this program runs. -/
  keep : ν → Prop
  /-- What all threads together maintain. -/
  ambient : FS ν α → Prop
  /-- What must hold whenever the machine may crash. -/
  crash : FS ν α → Prop

variable (R : Rely ν α)

/-- Weakest precondition of a program among other threads. -/
def Safe (Q : ρ → FS ν α → Prop) : FileProg ν α ρ → FS ν α → Prop
  | .ret r, fs => ∀ fs', Keeps R.keep fs fs' → R.ambient fs' → R.crash fs' ∧ Q r fs'
  | .look k, fs => ∀ fs', Keeps R.keep fs fs' → R.ambient fs' →
      R.crash fs' ∧ Safe Q (k fs') fs'
  | .op o k, fs => ∀ fs', Keeps R.keep fs fs' → R.ambient fs' →
      R.crash fs' ∧ R.may o fs' ∧ Safe Q (k true) (o.exec fs') ∧
        (R.fault o → ∀ fs'', o.Fails fs' fs'' → Safe Q (k false) fs'')

variable {R} {Q : ρ → FS ν α → Prop}

theorem Safe.keeps {p : FileProg ν α ρ} {fs fs' : FS ν α} (h : Safe R Q p fs)
    (hk : Keeps R.keep fs fs') : Safe R Q p fs' := by
  cases p with
  | ret r => exact fun fs'' hk' => h fs'' (hk.trans hk')
  | look k => exact fun fs'' hk' => h fs'' (hk.trans hk')
  | op o k => exact fun fs'' hk' => h fs'' (hk.trans hk')

theorem Safe.crash {p : FileProg ν α ρ} {fs : FS ν α} (h : Safe R Q p fs)
    (ha : R.ambient fs) : R.crash fs := by
  cases p with
  | ret r => exact (h fs (Keeps.refl _ _) ha).1
  | look k => exact (h fs (Keeps.refl _ _) ha).1
  | op o k => exact (h fs (Keeps.refl _ _) ha).1

variable {r : ρ} {k : Bool → FileProg ν α ρ} {o : Op ν α} {Q' : τ → FS ν α → Prop}
  {A : FS ν α → Prop} {P : ρ → Prop}

theorem Safe.done {fs : FS ν α} (h : Safe R Q (.ret r) fs) (ha : R.ambient fs) : Q r fs :=
  (h fs (Keeps.refl _ _) ha).2

theorem Safe.looked {k : FS ν α → FileProg ν α ρ} {fs : FS ν α} (h : Safe R Q (.look k) fs)
    (ha : R.ambient fs) : Safe R Q (k fs) fs :=
  (h fs (Keeps.refl _ _) ha).2

theorem Safe.allowed {fs : FS ν α} (h : Safe R Q (.op o k) fs) (ha : R.ambient fs) : R.may o fs :=
  (h fs (Keeps.refl _ _) ha).2.1

theorem Safe.exec {fs : FS ν α} (h : Safe R Q (.op o k) fs) (ha : R.ambient fs) :
    Safe R Q (k true) (o.exec fs) :=
  (h fs (Keeps.refl _ _) ha).2.2.1

theorem Safe.fails {fs fs' : FS ν α} (h : Safe R Q (.op o k) fs) (ha : R.ambient fs)
    (hf : R.fault o) (hs : o.Fails fs fs') : Safe R Q (k false) fs' :=
  (h fs (Keeps.refl _ _) ha).2.2.2 hf fs' hs

/-! ## Rules -/

theorem Safe.mono {Q' : ρ → FS ν α → Prop} {p : FileProg ν α ρ} {fs : FS ν α}
    (h : Safe R Q p fs) (hq : ∀ r fs', R.ambient fs' → R.crash fs' → Q r fs' → Q' r fs') :
    Safe R Q' p fs := by
  induction p generalizing fs with
  | ret r =>
    intro fs' hk ha
    obtain ⟨hc, hr⟩ := h fs' hk ha
    exact ⟨hc, hq r fs' ha hc hr⟩
  | look k ih => exact fun fs' hk ha => ⟨(h fs' hk ha).1, ih fs' (h fs' hk ha).2⟩
  | op o k ih =>
    intro fs' hk ha
    obtain ⟨hc, ho, hs, hf⟩ := h fs' hk ha
    exact ⟨hc, ho, ih true hs, fun hfault fs'' hs' => ih false (hf hfault fs'' hs')⟩

theorem Safe.wait {p : FileProg ν α ρ} {fs : FS ν α}
    (h : ∀ fs', Keeps R.keep fs fs' → R.ambient fs' → Safe R Q p fs') : Safe R Q p fs := by
  cases p with
  | ret r => exact fun fs' hk ha => h fs' hk ha fs' (Keeps.refl _ _) ha
  | look k => exact fun fs' hk ha => h fs' hk ha fs' (Keeps.refl _ _) ha
  | op o k => exact fun fs' hk ha => h fs' hk ha fs' (Keeps.refl _ _) ha

theorem Safe.bind {p : FileProg ν α ρ} {f : ρ → FileProg ν α τ} {fs : FS ν α} (h : Safe R Q p fs)
    (hf : ∀ r fs', R.ambient fs' → Q r fs' → Safe R Q' (f r) fs') : Safe R Q' (p >>= f) fs := by
  induction p generalizing fs with
  | ret r => exact Safe.wait fun fs' hk ha => hf r fs' ha (h fs' hk ha).2
  | look k ih => exact fun fs' hk ha => ⟨(h fs' hk ha).1, ih fs' (h fs' hk ha).2⟩
  | op o k ih =>
    intro fs' hk ha
    obtain ⟨hc, ho, hs, hfail⟩ := h fs' hk ha
    exact ⟨hc, ho, ih true hs, fun hfault fs'' hs' => ih false (hfail hfault fs'' hs')⟩

theorem Safe.map {p : FileProg ν α ρ} {f : ρ → τ} {fs : FS ν α}
    (h : Safe R (fun r fs' => Q' (f r) fs') p fs) : Safe R Q' (p >>= fun r => .ret (f r)) fs := by
  induction p generalizing fs with
  | ret r => exact h
  | look k ih => exact fun fs' hk ha => ⟨(h fs' hk ha).1, ih fs' (h fs' hk ha).2⟩
  | op o k ih =>
    intro fs' hk ha
    obtain ⟨hc, ho, hs, hfail⟩ := h fs' hk ha
    exact ⟨hc, ho, ih true hs, fun hfault fs'' hs' => ih false (hfail hfault fs'' hs')⟩

/-- Assertions about kept slots survive the other threads. -/
def Stable (R : Rely ν α) (A : FS ν α → Prop) : Prop :=
  ∀ fs fs', A fs → Keeps R.keep fs fs' → A fs'

theorem Safe.ret_intro {fs : FS ν α} (hA : Stable R A) (h : A fs)
    (hq : ∀ fs', A fs' → R.ambient fs' → R.crash fs' ∧ Q r fs') : Safe R Q (.ret r) fs :=
  fun fs' hk ha => hq fs' (hA fs fs' h hk) ha

theorem Safe.look_intro {k : FS ν α → FileProg ν α ρ} {fs : FS ν α} (hA : Stable R A) (h : A fs)
    (hs : ∀ fs', A fs' → R.ambient fs' → R.crash fs' ∧ Safe R Q (k fs') fs') :
    Safe R Q (.look k) fs :=
  fun fs' hk ha => hs fs' (hA fs fs' h hk) ha

theorem Safe.op_intro {fs : FS ν α} (hA : Stable R A) (h : A fs)
    (hc : ∀ fs', A fs' → R.ambient fs' → R.crash fs' ∧ R.may o fs')
    (hs : ∀ fs', A fs' → R.ambient fs' → Safe R Q (k true) (o.exec fs'))
    (hf : R.fault o → ∀ fs' fs'', A fs' → R.ambient fs' → o.Fails fs' fs'' →
      Safe R Q (k false) fs'') : Safe R Q (.op o k) fs := by
  intro fs' hk ha
  have hA' := hA fs fs' h hk
  exact ⟨(hc fs' hA' ha).1, (hc fs' hA' ha).2, hs fs' hA' ha,
    fun hfault fs'' hs' => hf hfault fs' fs'' hA' ha hs'⟩

theorem Safe.of_steps {P : Op ν α → Prop} {p : FileProg ν α ρ} {fs : FS ν α} (hA : Stable R A)
    (hc : ∀ fs', A fs' → R.ambient fs' → R.crash fs')
    (ho : ∀ o, P o → ∀ fs', A fs' → R.ambient fs' →
      R.may o fs' ∧ A (o.exec fs') ∧ ∀ fs'', o.Fails fs' fs'' → A fs'') (hp : p.Steps P)
    (h : A fs) : Safe R (fun _ fs' => A fs') p fs := by
  induction p generalizing fs with
  | ret r => exact Safe.ret_intro hA h fun fs' h' ha => ⟨hc fs' h' ha, h'⟩
  | look k ih => exact Safe.look_intro hA h fun fs' h' ha => ⟨hc fs' h' ha, ih fs' (hp fs') h'⟩
  | op o k ih =>
    refine Safe.op_intro hA h (fun fs' h' ha => ⟨hc fs' h' ha, (ho o hp.1 fs' h' ha).1⟩) ?_ ?_
    · exact fun fs' h' ha => ih true (hp.2 true) (ho o hp.1 fs' h' ha).2.1
    · exact fun _ fs' fs'' h' ha hf => ih false (hp.2 false) ((ho o hp.1 fs' h' ha).2.2 fs'' hf)

theorem Safe.and_ends {p : FileProg ν α ρ} {fs : FS ν α} (h : Safe R Q p fs) (he : p.Ends P) :
    Safe R (fun r fs' => Q r fs' ∧ P r) p fs := by
  induction p generalizing fs with
  | ret r => exact fun fs' hk ha => ⟨(h fs' hk ha).1, (h fs' hk ha).2, he⟩
  | look k ih => exact fun fs' hk ha => ⟨(h fs' hk ha).1, ih fs' (h fs' hk ha).2 (he fs')⟩
  | op o k ih =>
    intro fs' hk ha
    obtain ⟨hc, ho, hs, hf⟩ := h fs' hk ha
    exact ⟨hc, ho, ih true hs (he true), fun hfault fs'' hs' => ih false (hf hfault fs'' hs') (he false)⟩

theorem Safe.and_endsOk {p : FileProg ν α ρ} {fs : FS ν α} (h : Safe R Q p fs) (he : p.EndsOk P) :
    Safe R (fun r fs' => Q r fs' ∧ ((∀ o, ¬ R.fault o) → P r)) p fs := by
  by_cases hno : ∀ o, ¬ R.fault o
  · induction p generalizing fs with
    | ret r => exact fun fs' hk ha => ⟨(h fs' hk ha).1, (h fs' hk ha).2, fun _ => he⟩
    | look k ih => exact fun fs' hk ha => ⟨(h fs' hk ha).1, ih fs' (h fs' hk ha).2 (he fs')⟩
    | op o k ih =>
      intro fs' hk ha
      obtain ⟨hc, ho, hs, _⟩ := h fs' hk ha
      exact ⟨hc, ho, ih true hs he, fun hfault => absurd hfault (hno o)⟩
  · exact h.mono fun r fs' _ _ hq => ⟨hq, fun hno' => absurd hno' hno⟩

theorem Safe.both {R₁ R₂ : Rely ν α} {Q₁ Q₂ : ρ → FS ν α → Prop} {p : FileProg ν α ρ} {fs : FS ν α}
    (h₁ : Safe R₁ Q₁ p fs) (h₂ : Safe R₂ Q₂ p fs)
    (hfault : ∀ o, R.fault o → R₁.fault o ∧ R₂.fault o)
    (hmay : ∀ o fs', R₁.may o fs' → R₂.may o fs' → R.may o fs')
    (hkeep : ∀ n, (R₁.keep n ∨ R₂.keep n) → R.keep n)
    (hamb : ∀ fs', R.ambient fs' → R₁.ambient fs' ∧ R₂.ambient fs')
    (hcrash : ∀ fs', R₁.crash fs' → R₂.crash fs' → R.crash fs') :
    Safe R (fun r fs' => Q₁ r fs' ∧ Q₂ r fs') p fs := by
  induction p generalizing fs with
  | ret r =>
    intro fs' hk ha
    have e₁ := h₁ fs' (hk.mono fun n hn => hkeep n (Or.inl hn)) (hamb fs' ha).1
    have e₂ := h₂ fs' (hk.mono fun n hn => hkeep n (Or.inr hn)) (hamb fs' ha).2
    exact ⟨hcrash fs' e₁.1 e₂.1, e₁.2, e₂.2⟩
  | look k ih =>
    intro fs' hk ha
    have e₁ := h₁ fs' (hk.mono fun n hn => hkeep n (Or.inl hn)) (hamb fs' ha).1
    have e₂ := h₂ fs' (hk.mono fun n hn => hkeep n (Or.inr hn)) (hamb fs' ha).2
    exact ⟨hcrash fs' e₁.1 e₂.1, ih fs' e₁.2 e₂.2⟩
  | op o k ih =>
    intro fs' hk ha
    have e₁ := h₁ fs' (hk.mono fun n hn => hkeep n (Or.inl hn)) (hamb fs' ha).1
    have e₂ := h₂ fs' (hk.mono fun n hn => hkeep n (Or.inr hn)) (hamb fs' ha).2
    refine ⟨hcrash fs' e₁.1 e₂.1, hmay o fs' e₁.2.1 e₂.2.1, ih true e₁.2.2.1 e₂.2.2.1, ?_⟩
    intro hf fs'' hs
    exact ih false (e₁.2.2.2 (hfault o hf).1 fs'' hs) (e₂.2.2.2 (hfault o hf).2 fs'' hs)

/-! ## Steps of a program among others -/

inductive ProgStep (fault : Op ν α → Prop) :
    FS ν α → FileProg ν α ρ → FS ν α → FileProg ν α ρ → Prop where
  | look (k : FS ν α → FileProg ν α ρ) (fs : FS ν α) : ProgStep fault fs (.look k) fs (k fs)
  | exec (o : Op ν α) (k : Bool → FileProg ν α ρ) (fs : FS ν α) :
      ProgStep fault fs (.op o k) (o.exec fs) (k true)
  | fail (o : Op ν α) (k : Bool → FileProg ν α ρ) (fs fs' : FS ν α) (hf : fault o)
      (hs : o.Fails fs fs') : ProgStep fault fs (.op o k) fs' (k false)

variable {fault : Op ν α → Prop} {p p' : FileProg ν α ρ} {fs fs' : FS ν α}

theorem ProgStep.mono {fault' : Op ν α → Prop} (h : ProgStep fault fs p fs' p')
    (hf : ∀ o, fault o → fault' o) : ProgStep fault' fs p fs' p' := by
  cases h with
  | look k => exact .look k fs
  | exec o k => exact .exec o k fs
  | fail o k fs fs' ho hs => exact .fail o k fs fs' (hf o ho) hs

theorem Safe.step (h : Safe R Q p fs) (ha : R.ambient fs) (hp : ProgStep R.fault fs p fs' p') :
    Safe R Q p' fs' := by
  cases hp with
  | look k => exact h.looked ha
  | exec o k => exact h.exec ha
  | fail o k fs fs' hf hs => exact h.fails ha hf hs

theorem Safe.effect (h : Safe R Q p fs) (ha : R.ambient fs) (hp : ProgStep fault fs p fs' p') :
    fs' = fs ∨ ∃ o, R.may o fs ∧ o.Fails fs fs' := by
  cases hp with
  | look k => exact Or.inl rfl
  | exec o k => exact Or.inr ⟨o, h.allowed ha, Or.inr (Or.inl rfl)⟩
  | fail o k fs fs' _ hs => exact Or.inr ⟨o, h.allowed ha, hs⟩

theorem FileProg.Ends.step (h : p.Ends P) (hp : ProgStep fault fs p fs' p') : p'.Ends P := by
  cases hp with
  | look k => exact h fs
  | exec o k => exact h true
  | fail o k => exact h false

theorem runOk_steps (p : FileProg ν α ρ) (fs : FS ν α) :
    Relation.ReflTransGen (fun a b : FS ν α × FileProg ν α ρ => ProgStep fault a.1 a.2 b.1 b.2)
      (fs, p) ((runOk p fs).1, .ret (runOk p fs).2) := by
  induction p generalizing fs with
  | ret r => exact Relation.ReflTransGen.refl
  | look k ih => exact Relation.ReflTransGen.head (ProgStep.look k fs) (ih fs fs)
  | op o k ih => exact Relation.ReflTransGen.head (ProgStep.exec o k fs) (ih true (o.exec fs))

end KvMem.CrashStore

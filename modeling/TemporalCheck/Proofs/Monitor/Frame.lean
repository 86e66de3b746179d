import TemporalCheck.Proofs.Monitor.Course

/-! What a monitor depends on. It looks at what its feed tells to readers, and not at how many of
them there are. Its name does not matter, nor does it how many events it reads at a time. -/
namespace TemporalCheck

variable {State : Type} {model : Model State} {f g : Feed State} {m : Monitor State}
  {name : String} {n : Nat}

structure Feed.Matches (f g : Feed State) : Prop where
  states : ∀ fp, g.state? fp = f.state? fp
  count : g.stateCount = f.stateCount
  events : g.events = f.events
  status : g.status = f.status

theorem Feed.Matches.refl (f : Feed State) : f.Matches f := ⟨fun _ => rfl, rfl, rfl, rfl⟩

namespace Monitor

def relabel (name : String) (n : Nat) (m : Monitor State) : Monitor State :=
  { m with name := name, batch := n }

@[simp] theorem product_relabel (name : String) (n : Nat) (m : Monitor State) :
    (m.relabel name n).product = m.product := rfl

@[simp] theorem detector_relabel (name : String) (n : Nat) (m : Monitor State) :
    (m.relabel name n).detector = m.detector := rfl

@[simp] theorem isScanDue_relabel (name : String) (n : Nat) (m : Monitor State) :
    (m.relabel name n).isScanDue = m.isScanDue := rfl

section Growth

variable {m' m'' : Monitor State}

structure SameGrowth (m m' : Monitor State) : Prop where
  product : m'.product = m.product
  session : m'.session = m.session
  known : m'.known = m.known

theorem SameGrowth.refl (m : Monitor State) : m.SameGrowth m := ⟨rfl, rfl, rfl⟩

theorem SameGrowth.trans (first : m.SameGrowth m') (second : m'.SameGrowth m'') :
    m.SameGrowth m'' :=
  ⟨second.product.trans first.product, second.session.trans first.session,
    second.known.trans first.known⟩

theorem SameGrowth.symm (same : m.SameGrowth m') : m'.SameGrowth m :=
  ⟨same.product.symm, same.session.symm, same.known.symm⟩

theorem scan_sameGrowth (m : Monitor State) : m.SameGrowth m.scan.2 := by
  unfold scan
  split
  · exact .refl m
  · dsimp only
    split
    · exact ⟨rfl, rfl, rfl⟩
    · split <;> exact ⟨rfl, rfl, rfl⟩

theorem resolve_congr (same : f.Matches g) (growth : m.SameGrowth m') (fps : List Fingerprint) :
    m'.resolve g fps = m.resolve f fps := by
  unfold resolve
  simp only [same.states, growth.product]

theorem settleFrom_congr (same : f.Matches g) (fuel : Nat) (todo : List NodeId)
    (growth : m.SameGrowth m') :
    (settleFrom model g fuel todo m').1 = (settleFrom model f fuel todo m).1 ∧
      (settleFrom model f fuel todo m).2.SameGrowth (settleFrom model g fuel todo m').2 := by
  induction fuel generalizing todo m m' with
  | zero => exact ⟨rfl, growth⟩
  | succ fuel ih =>
    cases todo with
    | nil => exact ⟨rfl, growth⟩
    | cons id todo =>
      unfold settleFrom
      simp only [growth.product, growth.session, growth.known, resolve_congr same growth]
      cases (m.product.node? id).bind fun node => m.known[node.key.fingerprint]? with
      | none => exact ih todo growth
      | some next =>
        dsimp only
        generalize m.product.expandNode model m.session id (m.resolve f next) = grown
        cases grown.failure with
        | some e => exact ⟨rfl, rfl, rfl, rfl⟩
        | none => exact ih _ ⟨rfl, rfl, rfl⟩

theorem absorb_congr (same : f.Matches g) (growth : m.SameGrowth m') {grown grown' : Growth State}
    (equal : grown' = grown) : (absorb model g m' grown').1 = (absorb model f m grown).1 ∧
      (absorb model f m grown).2.SameGrowth (absorb model g m' grown').2 := by
  rw [equal]
  have after : SameGrowth { m with product := grown.product, session := grown.session }
      { m' with product := grown.product, session := grown.session } := ⟨rfl, rfl, growth.known⟩
  unfold absorb
  dsimp only
  cases grown.failure with
  | some e => exact ⟨rfl, after⟩
  | none =>
    dsimp only
    unfold settle
    rw [same.count]
    exact settleFrom_congr same _ _ after

/-- What an event comes to depends on the growth so far, and not on where the monitor stands. -/
theorem apply_congr (model : Model State) (same : f.Matches g) (growth : m.SameGrowth m')
    (e : Event) :
    (apply model g m' e).1 = (apply model f m e).1 ∧
      (apply model f m e).2.SameGrowth (apply model g m' e).2 := by
  cases e with
  | initial fp =>
    refine absorb_congr same growth ?_
    rw [resolve_congr same growth, growth.product, growth.session]
  | expanded source next =>
    have told : SameGrowth { m with known := m.known.insert source next }
        { m' with known := m'.known.insert source next } :=
      ⟨growth.product, growth.session, congrArg (·.insert source next) growth.known⟩
    refine absorb_congr same told ?_
    rw [resolve_congr same told, growth.product, growth.session]

end Growth

theorem apply_relabel (same : f.Matches g) (m : Monitor State) (e : Event) :
    apply model g (m.relabel name n) e = (apply model f m e).map id (relabel name n) := by
  have relabelled : m.SameGrowth (m.relabel name n) := ⟨rfl, rfl, rfl⟩
  obtain ⟨failure, growth⟩ := apply_congr model same relabelled e
  have alike := @apply_alike _ model f m e
  have alike' := @apply_alike _ model g (m.relabel name n) e
  generalize apply model f m e = result at failure growth alike ⊢
  generalize apply model g (m.relabel name n) e = result' at failure growth alike' ⊢
  refine Prod.ext failure ?_
  calc result'.2
    _ = { m.relabel name n with
          product := result'.2.product, session := result'.2.session,
          known := result'.2.known } := alike'
    _ = relabel name n { m with
          product := result.2.product, session := result.2.session,
          known := result.2.known } := by rw [growth.product, growth.session, growth.known]; rfl
    _ = relabel name n result.2 := congrArg (relabel name n) alike.symm

theorem scan_relabel (m : Monitor State) :
    (m.relabel name n).scan = m.scan.map id (relabel name n) := by
  unfold scan
  simp only [detector_relabel, product_relabel]
  cases m.detector.scan m.product with
  | mk report? detector =>
    cases report? with
    | none => rfl
    | some report =>
      dsimp only
      cases report.violating with
      | nil => rfl
      | cons component rest =>
        dsimp only
        cases m.product.lasso component <;> rfl

theorem consume_relabel (same : f.Matches g) (events : List Event) (m : Monitor State) :
    consume model g events (m.relabel name n) =
      (consume model f events m).map id (relabel name n) := by
  induction events generalizing m with
  | nil => rfl
  | cons e rest ih =>
    have counted : ({ m.relabel name n with cursor := (m.relabel name n).cursor + 1 } :
        Monitor State) = relabel name n { m with cursor := m.cursor + 1 } := rfl
    unfold consume
    rw [counted, apply_relabel same]
    cases apply model f { m with cursor := m.cursor + 1 } e with
    | mk failure? m' =>
      cases failure? with
      | some e => rfl
      | none =>
        simp only [Prod.map_apply, id_eq, isScanDue_relabel, scan_relabel]
        split
        · cases m'.scan with
          | mk outcome? m'' =>
            cases outcome? with
            | some outcome => rfl
            | none => exact ih m''
        · exact ih m'

theorem conclude_relabel (status : FeedStatus) (m : Monitor State) :
    (m.relabel name n).conclude status = (m.conclude status).map id (relabel name n) := by
  unfold conclude
  rw [scan_relabel]
  cases m.scan with
  | mk outcome? m' => cases outcome? <;> rfl

/-- A monitor that has read nothing yet comes to the same end on two feeds that tell the same,
however much it reads at a time. -/
theorem drive_relabel (same : f.Matches g) (fresh : m.cursor = 0) :
    (m.relabel name n).drive model g = (m.drive model f).map id (relabel name n) := by
  have fresh' : (m.relabel name n).cursor = 0 := fresh
  rw [drive_eq_consume fresh', drive_eq_consume fresh, same.events, same.status,
    consume_relabel same]
  cases consume model f f.events.toList m with
  | mk outcome? m' =>
    cases outcome? with
    | some outcome => rfl
    | none => exact conclude_relabel f.status m'

/-- It reports the same then, but for the name. -/
theorem run_relabel (same : f.Matches g) (fresh : m.cursor = 0) :
    (m.relabel name n).run model g = { m.run model f with name := name } := by
  unfold run
  rw [drive_relabel same fresh]
  rfl

/-- A report carries the name of its monitor. -/
theorem name_run (fresh : m.cursor = 0) : (m.run model f).name = m.name :=
  congrArg PropertyReport.name (@run_relabel _ model f f m m.name m.batch (.refl f) fresh)

/-- Monitors that differ in their batches only report the same. -/
theorem run_batch (same : f.Matches g) (fresh : m.cursor = 0) (n : Nat) :
    (m.relabel m.name n).run model g = m.run model f :=
  (run_relabel same fresh).trans
    (congrArg (fun name => { m.run model f with name := name }) (name_run fresh).symm)

end Monitor
end TemporalCheck

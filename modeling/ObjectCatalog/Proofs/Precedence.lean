import Mathlib.Tactic
import ObjectCatalog.Configuration
import ObjectCatalog.Proofs.Outcomes

/-!
# Options before variables

An option of the command line takes the place of the variable behind it, so what the variable says is
lost. But all variables of numbers are read before the two are put together, and one that is no number
of its range keeps the program from starting, whether or not its option is given.

* `Environment.faultOf?`, `Environment.fault?`: what is wrong with a variable, and with the variables.
* `Configuration.ofEnvironment_eq_error_iff`: an environment is refused for its first fault.
* `Configuration.withArguments_congr`: sound variables whose options are given do not matter.
* `Configuration.ofArguments_eq_iff`: nor do they for a program, but for their faults.
* `Configuration.read_eq`: words count for the arguments that they are read as.
* `Configuration.options_override`: **when an option makes its variable irrelevant, exactly.**
-/

namespace ObjectCatalog

variable {words : List Bytes} {a : Arguments} {env env' : Environment} {v p : Parameter}
  {rest : List Parameter} {r : IntegerRange} {d : Int} {f : VariableFault} {c c' : Configuration}

/-! ## Faults of variables -/

/-- The numbers that the variable of an option may hold; `none` when it may hold any text. -/
def Parameter.range? : Parameter → Option IntegerRange
  | host | databaseUrl => none
  | tcpPort => some .unsigned16
  | minPartSize => some .signed64
  | maxParts | loopBatchSize => some .unsigned64

/-- The options whose variables are read before that of an option. -/
def Parameter.readBefore (p : Parameter) : List Parameter := all.takeWhile (· ≠ p)

/-- The option whose variable has a fault. -/
def VariableFault.parameter : VariableFault → Parameter
  | notText v _ | notInteger v _ _ => v

namespace Environment

/-- What is wrong with a variable. A text that cannot be read counts as none, and is not wrong. -/
def faultOf? (env : Environment) (v : Parameter) : Option VariableFault :=
  match v.range?, env v with
  | some r, some value =>
    match Utf8.decode? value with
    | none => some (.notText v value)
    | some text =>
      match r.read text with
      | .ok _ => none
      | .error fault => some (.notInteger v text fault)
  | _, _ => none

/-- What is wrong with the first variable that has a fault. -/
def fault? (env : Environment) : Option VariableFault := Parameter.all.findSome? env.faultOf?

/-- The fault of a variable names it. -/
theorem parameter_of_faultOf? (h : env.faultOf? v = some f) : f.parameter = v := by
  unfold faultOf? at h
  split at h
  · split at h
    · cases h
      rfl
    · split at h
      · cases h
      · cases h
        rfl
  · cases h

theorem faultOf?_of_text (hv : v.range? = none) : env.faultOf? v = none := by
  unfold faultOf?
  rw [hv]

theorem error_eq_error_iff {ε α : Type} {e e' : ε} :
    (.error e : Except ε α) = .error e' ↔ some e = some e' := by
  rw [Except.error.injEq, Option.some.injEq]

/-- A number is read unless its variable has a fault. -/
theorem number_eq_error_iff (hv : v.range? = some r) :
    env.number v r d = .error f ↔ env.faultOf? v = some f := by
  unfold number faultOf?
  rw [hv]
  cases env v with
  | none => exact iff_of_false (fun h => by cases h) (fun h => by cases h)
  | some value =>
    dsimp only
    cases Utf8.decode? value with
    | none => exact error_eq_error_iff
    | some text =>
      dsimp only
      cases r.read text with
      | ok n => exact iff_of_false (fun h => by cases h) (fun h => by cases h)
      | error fault => exact error_eq_error_iff

theorem number_congr (h : env v = env' v) : env.number v r d = env'.number v r d := by
  rw [number, number, h]

theorem text_congr {d : String} (h : env v = env' v) : env.text v d = env'.text v d := by
  rw [text, text, h]

theorem faultOf?_congr (h : env v = env' v) : env.faultOf? v = env'.faultOf? v := by
  rw [faultOf?, faultOf?, h]

/-- The variable of a text is passed over. -/
theorem findSome?_of_text (hv : v.range? = none) :
    (v :: rest).findSome? env.faultOf? = rest.findSome? env.faultOf? := by
  rw [List.findSome?_cons, faultOf?_of_text hv]

/-- Reading a number and going on: the fault of its variable comes before those of the rest. -/
theorem number_bind_eq_error_iff {α : Type} {k : Int → Except VariableFault α}
    (hv : v.range? = some r) (hk : ∀ n, k n = .error f ↔ rest.findSome? env.faultOf? = some f) :
    env.number v r d >>= k = .error f ↔ (v :: rest).findSome? env.faultOf? = some f := by
  rw [List.findSome?_cons]
  cases hfault : env.faultOf? v with
  | some g =>
    rw [(number_eq_error_iff hv).2 hfault, Except.error_bind]
    exact error_eq_error_iff
  | none =>
    cases hnumber : env.number v r d with
    | error g =>
      rw [(number_eq_error_iff hv).1 hnumber] at hfault
      cases hfault
    | ok n =>
      rw [Except.ok_bind]
      exact hk n

/-! ### Environments that differ in one variable -/

/-- Where the variable of an option stands among all that are read. -/
theorem exists_readAfter (p : Parameter) :
    ∃ after, Parameter.all = p.readBefore ++ p :: after ∧ p ∉ p.readBefore ∧ p ∉ after := by
  cases p with
  | host => exact ⟨_, rfl, by decide, by decide⟩
  | tcpPort => exact ⟨_, rfl, by decide, by decide⟩
  | databaseUrl => exact ⟨_, rfl, by decide, by decide⟩
  | minPartSize => exact ⟨_, rfl, by decide, by decide⟩
  | maxParts => exact ⟨_, rfl, by decide, by decide⟩
  | loopBatchSize => exact ⟨_, rfl, by decide, by decide⟩

theorem findSome?_congr (hsame : ∀ q, q ≠ p → env q = env' q) (hp : p ∉ rest) :
    rest.findSome? env.faultOf? = rest.findSome? env'.faultOf? := by
  induction rest with
  | nil => rfl
  | cons q rest ih =>
    rw [List.mem_cons, not_or] at hp
    rw [List.findSome?_cons, List.findSome?_cons, faultOf?_congr (hsame q (Ne.symm hp.1)), ih hp.2]

/-- The first fault among variables that a variable is not of is none of its own. -/
theorem findSome?_ne_faultOf? (hp : p ∉ rest) (hf : env'.faultOf? p = some f) :
    rest.findSome? env.faultOf? ≠ some f := by
  intro hrest
  obtain ⟨q, hq, hfault⟩ := List.exists_of_findSome?_eq_some hrest
  rw [← parameter_of_faultOf? hfault, parameter_of_faultOf? hf] at hq
  exact hp hq

/-- The fault of one variable decides which is the first, unless one before it has a fault. -/
theorem fault?_eq_iff (hsame : ∀ q, q ≠ p → env q = env' q) :
    env.fault? = env'.fault? ↔
      env.faultOf? p = env'.faultOf? p ∨ ∃ q ∈ p.readBefore, env.faultOf? q ≠ none := by
  obtain ⟨after, hall, hbefore, hafter⟩ := exists_readAfter p
  unfold fault?
  rw [hall, List.findSome?_append, List.findSome?_append, ← findSome?_congr hsame hbefore]
  cases hfirst : p.readBefore.findSome? env.faultOf? with
  | some g =>
    obtain ⟨q, hq, hfault⟩ := List.exists_of_findSome?_eq_some hfirst
    refine iff_of_true rfl (.inr ⟨q, hq, ?_⟩)
    rw [hfault]
    exact Option.some_ne_none g
  | none =>
    have hsound : ¬ ∃ q ∈ p.readBefore, env.faultOf? q ≠ none := by
      rintro ⟨q, hq, hfault⟩
      exact hfault (List.findSome?_eq_none_iff.1 hfirst q hq)
    rw [Option.none_or, Option.none_or, or_iff_left hsound, List.findSome?_cons,
      List.findSome?_cons, ← findSome?_congr hsame hafter]
    cases hf : env.faultOf? p with
    | some g =>
      cases hf' : env'.faultOf? p with
      | some g' => rfl
      | none => exact iff_of_false (Ne.symm (findSome?_ne_faultOf? hafter hf)) (by simp)
    | none =>
      cases hf' : env'.faultOf? p with
      | some g' => exact iff_of_false (findSome?_ne_faultOf? hafter hf') (by simp)
      | none => exact iff_of_true rfl rfl

end Environment

namespace Configuration

/-- **An environment is refused for its first fault,** and for nothing else. -/
theorem ofEnvironment_eq_error_iff : ofEnvironment env = .error f ↔ env.fault? = some f := by
  unfold ofEnvironment Environment.fault? Parameter.all
  rw [Environment.findSome?_of_text rfl]
  refine Environment.number_bind_eq_error_iff rfl fun _ => ?_
  rw [Environment.findSome?_of_text rfl]
  refine Environment.number_bind_eq_error_iff rfl fun _ => ?_
  refine Environment.number_bind_eq_error_iff rfl fun _ => ?_
  refine Environment.number_bind_eq_error_iff rfl fun _ => ?_
  exact iff_of_false (fun h => by cases h) (fun h => by cases h)

/-- What an environment without a fault gives. -/
theorem ofEnvironment_eq_ok (h : ofEnvironment env = .ok c) :
    ∃ tcpPort minPartSize maxParts loopBatchSize,
      env.number .tcpPort .unsigned16 ({} : Configuration).tcpPort = .ok tcpPort ∧
      env.number .minPartSize .signed64 ({} : Settings).minPartSize = .ok minPartSize ∧
      env.number .maxParts .unsigned64 ({} : Settings).maxParts = .ok maxParts ∧
      env.number .loopBatchSize .unsigned64 ({} : Configuration).loopBatchSize = .ok loopBatchSize ∧
      c = { host := env.text .host ({} : Configuration).host, tcpPort
            databaseUrl := env.text .databaseUrl ({} : Configuration).databaseUrl, loopBatchSize
            settings := { minPartSize, maxParts := maxParts.toNat } } := by
  unfold ofEnvironment at h
  obtain ⟨tcpPort, hport, h⟩ := Except.bind_eq_ok.1 h
  obtain ⟨minPartSize, hleast, h⟩ := Except.bind_eq_ok.1 h
  obtain ⟨maxParts, hmost, h⟩ := Except.bind_eq_ok.1 h
  obtain ⟨loopBatchSize, hbatch, h⟩ := Except.bind_eq_ok.1 h
  cases h
  exact ⟨tcpPort, minPartSize, maxParts, loopBatchSize, hport, hleast, hmost, hbatch, rfl⟩

/-- A value that is given makes the one in its place irrelevant. -/
theorem getD_congr {α : Type} {given : Option α} {x y : α} (h : given.isSome = false → x = y) :
    given.getD x = given.getD y := by
  cases given with
  | some z => rfl
  | none => exact h rfl

/-- **Variables whose options are given do not matter,** when no variable has a fault. -/
theorem withArguments_congr (hsame : ∀ q, a.has q = false → env q = env' q)
    (h : ofEnvironment env = .ok c) (h' : ofEnvironment env' = .ok c') :
    c.withArguments a = c'.withArguments a := by
  obtain ⟨port, least, most, batch, hport, hleast, hmost, hbatch, rfl⟩ := ofEnvironment_eq_ok h
  obtain ⟨port', least', most', batch', hport', hleast', hmost', hbatch', rfl⟩ :=
    ofEnvironment_eq_ok h'
  -- a variable whose option is not given is read the same in both
  have hnumber (v : Parameter) {r : IntegerRange} {d n n' : Int} (hv : a.has v = false)
      (hn : env.number v r d = .ok n) (hn' : env'.number v r d = .ok n') : n = n' := by
    rw [Environment.number_congr (hsame v hv), hn'] at hn
    exact (Except.ok.inj hn).symm
  have htext (v : Parameter) (d : String) (hv : a.has v = false) : env.text v d = env'.text v d :=
    Environment.text_congr (hsame v hv)
  simp only [withArguments, mk.injEq, Settings.mk.injEq, and_true, true_and]
  refine ⟨getD_congr (htext .host _), getD_congr fun hv => hnumber .tcpPort hv hport hport',
    getD_congr (htext .databaseUrl _), getD_congr fun hv => hnumber .loopBatchSize hv hbatch hbatch',
    getD_congr fun hv => hnumber .minPartSize hv hleast hleast',
    congrArg Int.toNat (getD_congr fun hv => ?_)⟩
  rw [hnumber .maxParts hv hmost hmost']

/-- What is given stands in the configuration: putting it there again changes nothing. -/
theorem withArguments_withArguments : (c.withArguments a).withArguments a = c.withArguments a := by
  have hagain {α : Type} (given : Option α) (x : α) : given.getD (given.getD x) = given.getD x := by
    cases given <;> rfl
  simp only [withArguments, hagain, mk.injEq, Settings.mk.injEq, and_true, true_and]
  cases a.maxParts <;> rfl

/-- Arguments with an environment are refused for its first fault. -/
theorem ofArguments_of_fault (hf : env.fault? = some f) : ofArguments a env = .error f := by
  rw [ofArguments, ofEnvironment_eq_error_iff.2 hf]
  rfl

/-- Arguments with an environment that has no fault give a configuration. -/
theorem ofArguments_of_sound (hf : env.fault? = none) :
    ∃ c, ofEnvironment env = .ok c ∧ ofArguments a env = .ok (c.withArguments a, a.mode) := by
  cases hout : ofEnvironment env with
  | error g =>
    rw [ofEnvironment_eq_error_iff.1 hout] at hf
    cases hf
  | ok c =>
    refine ⟨c, rfl, ?_⟩
    rw [ofArguments, hout]
    rfl

/-- **Two environments that differ in variables whose options are given** come out the same just when
they have the same first fault, or none. -/
theorem ofArguments_eq_iff (hsame : ∀ q, a.has q = false → env q = env' q) :
    ofArguments a env = ofArguments a env' ↔ env.fault? = env'.fault? := by
  cases hf : env.fault? with
  | some f =>
    rw [ofArguments_of_fault hf]
    cases hf' : env'.fault? with
    | some f' =>
      rw [ofArguments_of_fault hf']
      exact Environment.error_eq_error_iff
    | none =>
      obtain ⟨c', -, hout'⟩ := ofArguments_of_sound (a := a) hf'
      rw [hout']
      exact iff_of_false (fun h => by cases h) (fun h => by cases h)
  | none =>
    obtain ⟨c, hc, hout⟩ := ofArguments_of_sound (a := a) hf
    rw [hout]
    cases hf' : env'.fault? with
    | some f' =>
      rw [ofArguments_of_fault hf']
      exact iff_of_false (fun h => by cases h) (fun h => by cases h)
    | none =>
      obtain ⟨c', hc', hout'⟩ := ofArguments_of_sound (a := a) hf'
      rw [hout', withArguments_congr hsame hc hc']
      exact iff_of_true rfl rfl

/-- Words that are arguments give what the arguments give. -/
theorem read_eq (ha : Arguments.read words = .ok a) (env : Environment) :
    read words env = (ofArguments a env).mapError .environment := by
  unfold read
  rw [ha]
  rfl

/-- **When an option takes the place of its variable.** Let arguments have an option, and let two
environments differ in the variable behind it only. For an option of a text the configuration and the
mode are the same with both, or the reason to fail is, whatever bytes the variable holds. For an option
of a number this is so just when the variable has the same fault in both, or none in either, or a
variable that is read before it has a fault. A fault with none before it is what the program fails for,
although the option is given. Without any fault there is a configuration, and all that is given stands
in it. All of this holds of every command line that is read as the arguments. -/
theorem options_override (hp : a.has p = true) (hsame : ∀ q, q ≠ p → env q = env' q) :
    (p.range? = none → ofArguments a env = ofArguments a env') ∧
    (ofArguments a env = ofArguments a env' ↔
      env.faultOf? p = env'.faultOf? p ∨ ∃ q ∈ p.readBefore, env.faultOf? q ≠ none) ∧
    (∀ f, env.faultOf? p = some f → (∀ q ∈ p.readBefore, env.faultOf? q = none) →
      ofArguments a env = .error f) ∧
    ((∀ q, env.faultOf? q = none) →
      ∃ c, ofArguments a env = .ok (c, a.mode) ∧ c.withArguments a = c) ∧
    ∀ words, Arguments.read words = .ok a →
      (p.range? = none → read words env = read words env') ∧
      (read words env = read words env' ↔
        env.faultOf? p = env'.faultOf? p ∨ ∃ q ∈ p.readBefore, env.faultOf? q ≠ none) ∧
      (∀ f, env.faultOf? p = some f → (∀ q ∈ p.readBefore, env.faultOf? q = none) →
        read words env = .error (.environment f)) ∧
      ((∀ q, env.faultOf? q = none) →
        ∃ c, read words env = .ok (c, a.mode) ∧ c.withArguments a = c) := by
  have hiff : ofArguments a env = ofArguments a env' ↔
      env.faultOf? p = env'.faultOf? p ∨ ∃ q ∈ p.readBefore, env.faultOf? q ≠ none := by
    rw [← Environment.fault?_eq_iff hsame]
    refine ofArguments_eq_iff fun q hq => hsame q ?_
    rintro rfl
    rw [hp] at hq
    cases hq
  have htext (hrange : p.range? = none) : ofArguments a env = ofArguments a env' := by
    refine hiff.2 (.inl ?_)
    rw [Environment.faultOf?_of_text hrange, Environment.faultOf?_of_text hrange]
  have hfault (f : VariableFault) (hf : env.faultOf? p = some f)
      (hbefore : ∀ q ∈ p.readBefore, env.faultOf? q = none) : ofArguments a env = .error f := by
    obtain ⟨after, hall, -, -⟩ := Environment.exists_readAfter p
    refine ofArguments_of_fault ?_
    rw [Environment.fault?, hall, List.findSome?_append, List.findSome?_eq_none_iff.2 hbefore,
      Option.none_or, List.findSome?_cons, hf]
  have hsound (hnone : ∀ q, env.faultOf? q = none) :
      ∃ c, ofArguments a env = .ok (c, a.mode) ∧ c.withArguments a = c := by
    obtain ⟨c, -, hout⟩ :=
      ofArguments_of_sound (a := a) (List.findSome?_eq_none_iff.2 fun q _ => hnone q)
    exact ⟨_, hout, withArguments_withArguments⟩
  refine ⟨htext, hiff, hfault, hsound, fun words ha => ?_⟩
  -- words are read before variables, so what was shown of the arguments carries over
  rw [read_eq ha env, read_eq ha env', Except.mapError_inj fun _ _ => StartFault.environment.inj]
  refine ⟨htext, hiff, fun f hf hbefore => ?_, fun hnone => ?_⟩
  · rw [hfault f hf hbefore]
    rfl
  · obtain ⟨c, hout, hstands⟩ := hsound hnone
    refine ⟨c, ?_, hstands⟩
    rw [hout]
    rfl

end Configuration

/-! ### A port and a host on the command line -/

namespace Sample

/-- The words `--port 1 --host=h`. -/
def endpointGiven : List Bytes := ["--port", "1", "--host=h"].map Utf8.encode

/-- An environment with one variable. -/
def variableAlone (v : Parameter) (value : Bytes) : Environment :=
  fun q => if q = v then some value else none

theorem variableAlone_agree (v : Parameter) (value value' : Bytes) :
    ∀ q, q ≠ v → variableAlone v value q = variableAlone v value' q :=
  fun _ hq => (if_neg hq).trans (if_neg hq).symm

theorem read_endpointGiven : ∃ a, Arguments.read endpointGiven = .ok a ∧
    a.has .tcpPort = true ∧ a.has .host = true := by
  have hgiven : (Arguments.read endpointGiven).toOption.map
      (fun a => (a.has .tcpPort, a.has .host)) = some (true, true) := by decide +kernel
  obtain ⟨a, ha, hhas⟩ := Except.exists_of_map_toOption hgiven
  exact ⟨a, ha, Prod.mk.inj hhas⟩

/-- Other ports in the variable make no difference, and neither do bytes that are no text in the variable
of the host. An empty port is in the way. -/
theorem options_override_endpoint :
    let given : Configuration := { host := "h", tcpPort := 1 }
    let read (v : Parameter) (value : Bytes) :=
      Configuration.read endpointGiven (variableAlone v value)
    read .tcpPort (Utf8.encode "80") = .ok (given, .serve) ∧
      read .tcpPort (Utf8.encode "+443") = .ok (given, .serve) ∧
      read .host [0xff] = read .host (Utf8.encode "localhost") ∧
      read .tcpPort [] = .error (.environment (.notInteger .tcpPort "" .empty)) := by
  intro given read
  obtain ⟨a, ha, hport, hhost⟩ := read_endpointGiven
  have hread : read .tcpPort (Utf8.encode "80") = .ok (given, .serve) := by decide +kernel
  have hsound : (variableAlone .tcpPort (Utf8.encode "80")).faultOf? .tcpPort = none ∧
      (variableAlone .tcpPort (Utf8.encode "+443")).faultOf? .tcpPort = none := by decide +kernel
  have hfault : (variableAlone .tcpPort []).faultOf? .tcpPort =
      some (.notInteger .tcpPort "" .empty) := by decide +kernel
  obtain ⟨-, -, -, -, hwords⟩ := Configuration.options_override hport
    (variableAlone_agree .tcpPort (Utf8.encode "80") (Utf8.encode "+443"))
  obtain ⟨-, -, -, -, hwords'⟩ := Configuration.options_override hhost
    (variableAlone_agree .host [0xff] (Utf8.encode "localhost"))
  obtain ⟨-, -, -, -, hwords''⟩ := Configuration.options_override hport
    (variableAlone_agree .tcpPort [] (Utf8.encode "80"))
  obtain ⟨-, hports, -, -⟩ := hwords endpointGiven ha
  obtain ⟨hhosts, -, -, -⟩ := hwords' endpointGiven ha
  obtain ⟨-, -, hrefused, -⟩ := hwords'' endpointGiven ha
  have hequal : read .tcpPort (Utf8.encode "80") = read .tcpPort (Utf8.encode "+443") :=
    hports.2 (.inl (hsound.1.trans hsound.2.symm))
  exact ⟨hread, hequal.symm.trans hread, hhosts rfl, hrefused _ hfault (by decide)⟩

/-- The port is given, and the environments differ in its variable only: one program starts, the other
does not. -/
theorem variable_in_the_way :
    let numeric := variableAlone .tcpPort (Utf8.encode "80")
    let wordy := variableAlone .tcpPort (Utf8.encode "eighty")
    (∃ a, Arguments.read endpointGiven = .ok a ∧ a.has .tcpPort = true) ∧
      (∀ q, q ≠ Parameter.tcpPort → numeric q = wordy q) ∧
      Configuration.read endpointGiven numeric = .ok ({ host := "h", tcpPort := 1 }, .serve) ∧
      Configuration.read endpointGiven wordy =
        .error (.environment (.notInteger .tcpPort "eighty" .invalidDigit)) := by
  intro numeric wordy
  obtain ⟨a, ha, hport, -⟩ := read_endpointGiven
  exact ⟨⟨a, ha, hport⟩, variableAlone_agree _ _ _, by decide +kernel, by decide +kernel⟩

end Sample

end ObjectCatalog

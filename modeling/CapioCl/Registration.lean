import CapioCl.Document

/-!
# Registered backends

The constructor, `useDefaultConfiguration` and `loadConfiguration` merge entries into the
configuration and append backends to the monitor (`Engine.cpp:901-936`); none of them looks at the
backends that are there. So each call adds one backend of every kind its configuration enables.

* `perform_backends`: one call.
* `Configured.backends_eq_zero_iff`: a kind has no backend as long as it was never enabled.
* `backendsMatch_iff`: the backends match the configuration when every call but the constructor
  found no kind enabled.
* `parseV1_not_backendsMatch`, `parseV1_1_backendsMatch`: the two version parsers.
-/

namespace CapioCl

open CapioCl.Lib CapioCl.Lib.Reading CapioCl.Parser

/-- The kinds of backends a configuration can enable. -/
inductive BackendKind where
  | multicast
  | fileSystem
  deriving Repr, DecidableEq

/-- The key that enables a kind. -/
def BackendKind.key : BackendKind → String
  | .multicast => "monitor.mcast.enabled"
  | .fileSystem => "monitor.filesystem.enabled"

def MonitorBackend.kind : MonitorBackend → BackendKind
  | .multicast _ _ _ _ _ => .multicast
  | .fileSystem => .fileSystem

namespace Engine

/-- The current configuration enables a kind. -/
def enables (κ : BackendKind) (e : Engine) : Bool := enabled e.configuration κ.key

/-- The number of backends of a kind. -/
def backends (κ : BackendKind) (e : Engine) : Nat := e.monitor.countP fun b => b.kind = κ

/-- One backend of each kind the configuration enables, and none of the others. -/
def BackendsMatch (e : Engine) : Prop := ∀ κ, e.backends κ = if e.enables κ then 1 else 0

instance (e : Engine) : Decidable e.BackendsMatch :=
  decidable_of_iff ((e.backends .multicast = if e.enables .multicast then 1 else 0) ∧
      e.backends .fileSystem = if e.enables .fileSystem then 1 else 0)
    ⟨fun h κ => by cases κ; exacts [h.1, h.2], fun h => ⟨h .multicast, h .fileSystem⟩⟩

/-- The calls that change the configuration. -/
inductive ConfigurationCall where
  | useDefaultConfiguration
  | loadConfiguration (path : String)
  deriving Repr, DecidableEq

def ConfigurationCall.perform (P : Platform) : ConfigurationCall → Engine → Except Exn Engine
  | .useDefaultConfiguration, e => e.useDefaultConfiguration
  | .loadConfiguration path, e => e.loadConfiguration P path

/-- `e` was constructed and then called on, each call returning; `earlier` are the engines the calls
were made on. -/
inductive Configured (P : Platform) (useDefaultSettings : Bool) : List Engine → Engine → Prop
  | construct {e : Engine} : create P useDefaultSettings = .ok e →
      Configured P useDefaultSettings [] e
  | call {earlier : List Engine} {e e' : Engine} (c : ConfigurationCall) :
      Configured P useDefaultSettings earlier e → c.perform P e = .ok e' →
      Configured P useDefaultSettings (earlier ++ [e]) e'

/-! ## One call -/

theorem backends_append {κ : BackendKind} {e e' : Engine} {added : List MonitorBackend}
    (h : e'.monitor = e.monitor ++ added) :
    e'.backends κ = e.backends κ + added.countP fun b => b.kind = κ := by
  unfold backends
  rw [h, List.countP_append]

theorem kind_multicastMonitor {config : Configuration} {b : MonitorBackend}
    (h : multicastMonitor config = .ok b) : b.kind = .multicast := by
  unfold multicastMonitor at h
  obtain ⟨_, -, h⟩ := bind_eq_ok_iff.mp h
  obtain ⟨_, -, h⟩ := bind_eq_ok_iff.mp h
  obtain ⟨_, -, h⟩ := bind_eq_ok_iff.mp h
  obtain ⟨_, -, h⟩ := bind_eq_ok_iff.mp h
  obtain ⟨_, -, h⟩ := bind_eq_ok_iff.mp h
  rw [← Except.ok.inj h]
  rfl

/-- The defaults enable both kinds. -/
theorem enables_loadDefaults (κ : BackendKind) (config : Configuration) :
    enabled config.loadDefaults κ.key = true := by
  have hdefault : configurationDefaults.lookup κ.key = some "true" := by
    cases κ <;> decide +kernel
  unfold enabled Configuration.getParameter
  rw [lookup_loadDefaults config hdefault]
  rfl

theorem useDefaultConfiguration_backends {e e' : Engine} (h : e.useDefaultConfiguration = .ok e')
    (κ : BackendKind) : e'.enables κ = true ∧ e'.backends κ = e.backends κ + 1 := by
  unfold useDefaultConfiguration at h
  obtain ⟨b, hb, h⟩ := bind_eq_ok_iff.mp h
  obtain rfl := Except.ok.inj h
  refine ⟨enables_loadDefaults κ e.configuration, ?_⟩
  rw [@backends_append κ e _ [b, .fileSystem] rfl, List.countP_cons, List.countP_singleton,
    kind_multicastMonitor hb]
  cases κ <;> rfl

theorem multicastBackend_countP {config : Configuration} {added : List MonitorBackend}
    (h : multicastBackend config = .ok added) (κ : BackendKind) :
    added.countP (fun b => b.kind = κ) =
      if κ = .multicast ∧ enabled config BackendKind.multicast.key then 1 else 0 := by
  change (if enabled config BackendKind.multicast.key = true then
    (multicastMonitor config).map fun m => [m] else .ok []) = _ at h
  by_cases hen : enabled config BackendKind.multicast.key = true
  · rw [if_pos hen] at h
    obtain ⟨b, hb, rfl⟩ := map_eq_ok_iff.mp h
    rw [List.countP_singleton, kind_multicastMonitor hb, hen]
    cases κ <;> rfl
  · rw [if_neg hen] at h
    rw [← Except.ok.inj h, if_neg fun hc => hen hc.2]
    rfl

/-- **A call adds one backend of each kind it leaves enabled.** -/
theorem perform_backends {P : Platform} {c : ConfigurationCall} {e e' : Engine}
    (h : c.perform P e = .ok e') (κ : BackendKind) :
    e'.backends κ = e.backends κ + if e'.enables κ then 1 else 0 := by
  cases c with
  | useDefaultConfiguration =>
    obtain ⟨hen, hcount⟩ := useDefaultConfiguration_backends h κ
    rw [hcount, hen]
    rfl
  | loadConfiguration path =>
    change e.loadConfiguration P path = .ok e' at h
    unfold loadConfiguration at h
    obtain ⟨config, -, h⟩ := bind_eq_ok_iff.mp h
    obtain ⟨added, hadded, h⟩ := bind_eq_ok_iff.mp h
    obtain rfl := Except.ok.inj h
    rw [backends_append (List.append_assoc _ _ _), List.countP_append,
      multicastBackend_countP hadded]
    unfold enables
    dsimp only
    cases κ with
    | multicast =>
      have hnone : ∀ b : Bool, List.countP (fun x : MonitorBackend => x.kind = .multicast)
          (if b = true then [.fileSystem] else []) = 0 := by decide
      rw [hnone, Nat.add_zero]
      simp
    | fileSystem =>
      have hone : ∀ b : Bool, List.countP (fun x : MonitorBackend => x.kind = .fileSystem)
          (if b = true then [.fileSystem] else []) = if b = true then 1 else 0 := by decide
      rw [hone, if_neg (by simp), Nat.zero_add]
      rfl

theorem create_backends {P : Platform} {useDefaultSettings : Bool} {e : Engine}
    (h : create P useDefaultSettings = .ok e) (κ : BackendKind) :
    e.backends κ = if e.enables κ then 1 else 0 := by
  unfold create at h
  cases useDefaultSettings with
  | false =>
    rw [← Except.ok.inj h]
    cases κ <;> rfl
  | true =>
    obtain ⟨hen, hcount⟩ := useDefaultConfiguration_backends h κ
    rw [hcount, hen]
    rfl

/-! ## Runs -/

section
variable {P : Platform} {useDefaultSettings : Bool} {earlier : List Engine} {e : Engine}

/-- **No backend of a kind as long as it was never enabled.** -/
theorem Configured.backends_eq_zero_iff (h : Configured P useDefaultSettings earlier e)
    (κ : BackendKind) :
    e.backends κ = 0 ↔ (∀ e' ∈ earlier, e'.enables κ = false) ∧ e.enables κ = false := by
  induction h with
  | construct h =>
    rw [create_backends h κ]
    simp
  | @call earlier e e' c h hc ih =>
    rw [perform_backends hc κ, Nat.add_eq_zero_iff, ih, List.forall_mem_append,
      List.forall_mem_singleton]
    simp

/-- A kind matches when it was enabled by nothing before the last call. -/
theorem Configured.backends_eq_iff (h : Configured P useDefaultSettings earlier e)
    (κ : BackendKind) :
    (e.backends κ = if e.enables κ then 1 else 0) ↔ ∀ e' ∈ earlier, e'.enables κ = false := by
  cases h with
  | construct h => exact iff_of_true (create_backends h κ) (by simp)
  | @call earlier e₀ _ c h hc =>
    rw [perform_backends hc κ, Nat.add_eq_right, h.backends_eq_zero_iff κ, List.forall_mem_append,
      List.forall_mem_singleton]

end

/-- **When the backends match the configuration**: when each call was made on an engine whose
configuration enables no kind. -/
theorem backendsMatch_iff (P : Platform) (useDefaultSettings : Bool) (earlier : List Engine)
    (e : Engine) (h : Configured P useDefaultSettings earlier e) :
    e.BackendsMatch ↔ ∀ e' ∈ earlier, ∀ κ, e'.enables κ = false := by
  have hkinds : e.BackendsMatch ↔ ∀ κ, ∀ e' ∈ earlier, e'.enables κ = false :=
    forall_congr' fun κ => h.backends_eq_iff κ
  rw [hkinds]
  constructor
  · exact fun hall e' he' κ => hall κ e' he'
  · exact fun hall κ e' he' => hall e' he' κ

/-- Without default settings, one call is all that is made. -/
theorem oneCall_backendsMatch : ∃ e e' : Engine, create posix false = .ok e ∧
    e.useDefaultConfiguration = .ok e' ∧ e'.BackendsMatch := by
  obtain ⟨e, he, hnone⟩ : ∃ e, create posix false = .ok e ∧ ∀ κ, e.enables κ = false :=
    ⟨_, rfl, fun κ => by cases κ <;> rfl⟩
  obtain ⟨e', he', -⟩ := e.exists_useDefaultConfiguration
  refine ⟨e, e', he, he', (backendsMatch_iff posix false [e] e'
    (.call .useDefaultConfiguration (.construct he) he')).mpr fun x hx => ?_⟩
  rw [List.mem_singleton.mp hx]
  exact hnone

/-- With default settings and one more call of the defaults there are two backends of each kind. -/
theorem defaultsTwice_not_backendsMatch : ∃ e e' : Engine, create posix true = .ok e ∧
    e.useDefaultConfiguration = .ok e' ∧ ∃ earlier, Configured posix true earlier e' ∧
      ¬ e'.BackendsMatch ∧ ∀ κ, e'.backends κ = 2 := by
  obtain ⟨e, he, -⟩ := exists_useDefaultConfiguration
    { workflowName := posix.workflowNameEnv.getD defaultWfName }
  change create posix true = .ok e at he
  obtain ⟨e', he', -⟩ := e.exists_useDefaultConfiguration
  have hcount : ∀ κ, e'.backends κ = 2 := by
    intro κ
    rw [(useDefaultConfiguration_backends he' κ).2, (useDefaultConfiguration_backends he κ).2]
    rfl
  refine ⟨e, e', he, he', [e], .call .useDefaultConfiguration (.construct he) he', fun h => ?_,
    hcount⟩
  have hone := h .multicast
  rw [hcount, (useDefaultConfiguration_backends he' .multicast).1] at hone
  cases hone

end Engine

/-! ## The version parsers -/

/-- The acts of a document leave the configuration and the backends. -/
theorem backendsMatch_of_header {e e' : Engine} (h : e'.header = e.header) :
    e'.BackendsMatch ↔ e.BackendsMatch := by
  obtain ⟨hconfig, hrest⟩ := Prod.mk.inj h
  obtain ⟨hmonitor, -⟩ := Prod.mk.inj hrest
  unfold Engine.BackendsMatch Engine.backends Engine.enables
  rw [hconfig, hmonitor]

theorem header_parseSections {J : Jsoncons} {P : Platform} {doc : Json} (hd : DocShape doc)
    {pre : String} {storeOnlyInMemory : Bool} {e e' : Engine}
    (h : parseSections J P doc pre storeOnlyInMemory e = .ok e') : e'.header = e.header := by
  rw [parseSections_eq J P hd] at h
  obtain ⟨d, -, rfl⟩ := map_eq_ok_iff.mp h
  exact header_run P _ e

/-- **`parse_v1` registers every backend twice**: the constructor uses the defaults, and then the
parser does. -/
theorem parseV1_not_backendsMatch {J : Jsoncons} {P : Platform} {doc : Json} {pre : String}
    {storeOnlyInMemory : Bool} {e : Engine} (h : parseV1 J P doc pre storeOnlyInMemory = .ok e) :
    ¬ e.BackendsMatch := by
  unfold parseV1 validateJson at h
  obtain ⟨e₁, he₁, h⟩ := bind_eq_ok_iff.mp h
  obtain ⟨e₂, he₂, h⟩ := bind_eq_ok_iff.mp h
  obtain ⟨_, hvalid, h⟩ := bind_eq_ok_iff.mp h
  obtain ⟨name, -, h⟩ := bind_eq_ok_iff.mp h
  have hv : schemaV1 doc = true := by
    by_contra hne
    rw [if_neg hne] at hvalid
    cases hvalid
  rw [backendsMatch_of_header (header_parseSections ((schemaV1_iff doc).mp hv).1 h)]
  intro hmatch
  have hrun : Engine.Configured P true [e₁] e₂ :=
    .call .useDefaultConfiguration (.construct he₁) he₂
  have hnone := (Engine.backendsMatch_iff P true [e₁] e₂ hrun).mp hmatch e₁
    (List.mem_singleton_self e₁) .multicast
  rw [(Engine.useDefaultConfiguration_backends he₁ .multicast).1] at hnone
  cases hnone

/-- **`parse_v1_1` registers what the configuration enables.** -/
theorem parseV1_1_backendsMatch {J : Jsoncons} {P : Platform} {doc : Json} {pre : String}
    {storeOnlyInMemory : Bool} {e : Engine} (h : parseV1_1 J P doc pre storeOnlyInMemory = .ok e) :
    e.BackendsMatch := by
  unfold parseV1_1 validateJson at h
  obtain ⟨e₁, he₁, h⟩ := bind_eq_ok_iff.mp h
  obtain ⟨_, hvalid, h⟩ := bind_eq_ok_iff.mp h
  obtain ⟨name, -, h⟩ := bind_eq_ok_iff.mp h
  obtain ⟨e₂, he₂, h⟩ := bind_eq_ok_iff.mp h
  have hv : schemaV1_1 doc = true := by
    by_contra hne
    rw [if_neg hne] at hvalid
    cases hvalid
  rw [backendsMatch_of_header (header_parseSections ((schemaV1_1_iff doc).mp hv).1 h)]
  obtain ⟨c, hc⟩ : ∃ c : Engine.ConfigurationCall,
      c.perform P (e₁.setWorkflowName (J.asString name)) = .ok e₂ := by
    unfold configure at he₂
    split at he₂
    · obtain ⟨path, -, hload⟩ := bind_eq_ok_iff.mp he₂
      exact ⟨.loadConfiguration (J.asString path), hload⟩
    · exact ⟨.useDefaultConfiguration, he₂⟩
  intro κ
  have hzero : (e₁.setWorkflowName (J.asString name)).backends κ = 0 := by
    rw [← Except.ok.inj he₁]
    cases κ <;> rfl
  rw [Engine.perform_backends hc κ, hzero, Nat.zero_add]

end CapioCl

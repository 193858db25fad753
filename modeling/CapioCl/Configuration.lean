import CapioCl.Basic

/-!
# The runtime configuration and the monitor backends

`CapioClConfiguration` (`configuration.cpp`, `defaults.cpp`) is a map from dotted keys to texts.
`load` flattens a TOML document into it, and reads every leaf that is neither a string nor a
boolean through `as_integer`, whose null result for another leaf it dereferences
(`Exn.undefined`).

A backend is what its constructor keeps: the addresses, ports and delay of a `MulticastMonitor`
(`Multicast.cpp:225-241`), nothing for a `FileSystemMonitor`. The sockets and threads are left
out.
-/

namespace CapioCl

open CapioCl.Lib

/-- `CapioClConfiguration::config`. -/
abbrev Configuration := UnorderedMap String String

/-- `configuration::defaults`, in the order of `loadDefaults`. -/
def configurationDefaults : List (String × String) :=
  [("monitor.mcast.commit.ip", "224.224.224.1"),
   ("monitor.mcast.commit.port", "12345"),
   ("monitor.mcast.homenode.ip", "224.224.224.2"),
   ("monitor.mcast.homenode.port", "12345"),
   ("monitor.mcast.delay_ms", "300"),
   ("monitor.filesystem.enabled", "true"),
   ("monitor.mcast.enabled", "true"),
   ("dynamic_api.port", "11223"),
   ("dynamic_api.ip", "224.224.224.3")]

namespace Configuration

/-- `CapioClConfiguration::set`. -/
def set (key value : String) (config : Configuration) : Configuration := config.insert key value

/-- `CapioClConfiguration::loadDefaults`. -/
def loadDefaults (config : Configuration) : Configuration :=
  configurationDefaults.foldl (fun config kv => config.set kv.1 kv.2) config

/-- The dotted path of `key` below `pre`. -/
def fullKey (pre key : String) : String := if pre = "" then key else pre ++ "." ++ key

/-- `load_config_to_memory` (`configuration.cpp:8-35`). -/
def loadConfigToMemory : List (String × Toml) → String → Configuration → Except Exn Configuration
  | [], _, map => .ok map
  | (key, .table tbl) :: rest, pre, map => do
    loadConfigToMemory rest pre (← loadConfigToMemory tbl (fullKey pre key) map)
  | (key, .string s) :: rest, pre, map =>
    loadConfigToMemory rest pre (map.insert (fullKey pre key) s)
  | (key, .boolean b) :: rest, pre, map =>
    loadConfigToMemory rest pre (map.insert (fullKey pre key) (if b then "true" else "false"))
  | (key, .integer n) :: rest, pre, map =>
    loadConfigToMemory rest pre (map.insert (fullKey pre key) (toString n))
  | (_, .other) :: _, _, _ => .error .undefined

/-- `CapioClConfiguration::load`. -/
def load (P : Platform) (path : String) (config : Configuration) : Except Exn Configuration :=
  if path = "" then .error (.configurationException "Empty pathname!")
  else
    match P.parseToml path with
    | .error what => .error (.configurationException what)
    | .ok tbl => loadConfigToMemory tbl "" config

/-- `getParameter(key, std::string *)`. -/
def getParameter (key : String) (config : Configuration) : Except Exn String :=
  match config.lookup key with
  | some v => .ok v
  | none => .error (.configurationException ("Key " ++ key ++ " not found!"))

/-- `getParameter(key, int *)`. -/
def getIntParameter (key : String) (config : Configuration) : Except Exn Int :=
  match config.lookup key with
  | some v => stoi v
  | none => .error (.configurationException ("Key " ++ key ++ " not found!"))

end Configuration

/-- A registered backend. -/
inductive MonitorBackend where
  | multicast (commitIp : String) (commitPort : Int) (homeNodeIp : String) (homeNodePort : Int)
      (delayMillis : Int)
  | fileSystem
  deriving Repr, DecidableEq

/-- The constructor of `MulticastMonitor`. -/
def multicastMonitor (config : Configuration) : Except Exn MonitorBackend := do
  let commitIp ← config.getParameter "monitor.mcast.commit.ip"
  let commitPort ← config.getIntParameter "monitor.mcast.commit.port"
  let homeNodeIp ← config.getParameter "monitor.mcast.homenode.ip"
  let homeNodePort ← config.getIntParameter "monitor.mcast.homenode.port"
  let delayMillis ← config.getIntParameter "monitor.mcast.delay_ms"
  return .multicast commitIp commitPort homeNodeIp homeNodePort delayMillis

/-- After `loadDefaults` a default key holds its default, whatever was set before. -/
theorem lookup_loadDefaults (config : Configuration) {k v : String}
    (h : configurationDefaults.lookup k = some v) : config.loadDefaults.lookup k = some v := by
  have hfold : ∀ (l : List (String × String)) (c : Configuration), (l.map Prod.fst).Nodup →
      (l.foldl (fun c kv => Configuration.set kv.1 kv.2 c) c).lookup k =
        (l.lookup k).or (c.lookup k) := by
    intro l
    induction l with
    | nil => intro c _; rfl
    | cons kv l ih =>
      intro c hl
      rw [List.map_cons, List.nodup_cons] at hl
      rw [List.foldl_cons, ih _ hl.2, List.lookup_cons]
      unfold Configuration.set
      by_cases hk : k = kv.1
      · subst hk
        have hnone : l.lookup kv.1 = none := by
          rw [List.lookup_eq_none_iff]
          intro m hm
          simpa using fun e : kv.1 = m.1 => hl.1 (e ▸ List.mem_map_of_mem hm)
        rw [hnone, AList.lookup_insert, beq_self_eq_true]
        rfl
      · rw [AList.lookup_insert_ne hk, beq_false_of_ne hk]
  unfold Configuration.loadDefaults
  rw [hfold _ _ (by decide +kernel), h]
  rfl

/-- **The default configuration always makes a multicast backend.** -/
theorem multicastMonitor_loadDefaults (config : Configuration) :
    multicastMonitor config.loadDefaults =
      .ok (.multicast "224.224.224.1" 12345 "224.224.224.2" 12345 300) := by
  have hport : stoi "12345" = .ok 12345 := by decide +kernel
  have hdelay : stoi "300" = .ok 300 := by decide +kernel
  unfold multicastMonitor Configuration.getParameter Configuration.getIntParameter
  rw [lookup_loadDefaults config (v := "224.224.224.1") (by decide +kernel),
    lookup_loadDefaults config (v := "12345") (by decide +kernel),
    lookup_loadDefaults config (v := "224.224.224.2") (by decide +kernel),
    lookup_loadDefaults config (v := "12345") (by decide +kernel),
    lookup_loadDefaults config (v := "300") (by decide +kernel)]
  simp only [hport, hdelay]
  rfl

end CapioCl

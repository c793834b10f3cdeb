import PrivatePaas.Data

/-!
# A codec for records and fragments

YAML with every text in double quotes, one field a line: a lawful instance of
`Yaml`. What the files handed to `create` and their bodies mean is a parameter.
-/

namespace PrivatePaas
set_option autoImplicit false
open Text PrivatePaas.Parser

namespace Codec

def escape (c : Char) : List Char :=
  if c = '\n' then ['\\', 'n'] else if c = '"' ∨ c = '\\' then ['\\', c] else [c]

def quote (cs : List Char) : List Char := cs.flatMap escape ++ ['"']

/-- What stands before the closing quote, and what stands behind it. -/
def unquote : List Char → Option (List Char × List Char)
  | [] => none
  | '"' :: rest => some ([], rest)
  | '\\' :: c :: cs => (unquote cs).map fun r => ((if c = 'n' then '\n' else c) :: r.1, r.2)
  | c :: cs => (unquote cs).map fun r => (c :: r.1, r.2)

theorem unquote_quote (cs rest : List Char) : unquote (quote cs ++ rest) = some (cs, rest) := by
  induction cs with
  | nil => rfl
  | cons c cs ih =>
    have hq : quote (c :: cs) = escape c ++ quote cs := by simp [quote]
    rw [hq, List.append_assoc, escape]
    split
    · rename_i hc
      subst c
      simp [unquote, ih]
    split
    · rename_i hn hc
      rcases hc with rfl | rfl
      · simp [unquote, ih]
      · simp [unquote, ih]
    · rename_i hn hc
      rw [not_or] at hc
      rw [List.singleton_append, unquote.eq_def]
      split
      · cases ‹_›
      · rename_i heq
        exact absurd (List.cons.inj heq).1 hc.1
      · rename_i heq
        exact absurd (List.cons.inj heq).1 hc.2
      · rename_i heq
        obtain ⟨rfl, rfl⟩ := List.cons.inj heq
        simp [ih]

/-- What stands behind `lit`. -/
def expect (lit : String) (cs : List Char) : Option (List Char) :=
  if lit.toList.isPrefixOf cs then some (cs.drop lit.toList.length) else none

theorem expect_append (lit : String) (cs : List Char) : expect lit (lit.toList ++ cs) = some cs := by
  simp [expect]

def line (key s : String) : List Char := (key ++ ": \"").toList ++ (quote s.toList ++ "\n".toList)

def field (key : String) (cs : List Char) : Option (String × List Char) := do
  let cs ← expect (key ++ ": \"") cs
  let (s, cs) ← unquote cs
  let cs ← expect "\n" cs
  return (String.ofList s, cs)

theorem field_line (key s : String) (rest : List Char) :
    field key (line key s ++ rest) = some (s, rest) := by
  rw [line, List.append_assoc, field, expect_append]
  simp only [List.append_assoc, Option.bind_eq_bind, Option.bind_some, unquote_quote, expect_append]
  simp

def items (ss : List String) : List Char :=
  ss.flatMap fun s => "- \"".toList ++ (quote s.toList ++ "\n".toList)

/-- At most `fuel` items. -/
def readItems : Nat → List Char → List String × List Char
  | 0, cs => ([], cs)
  | fuel + 1, cs =>
    match expect "- \"" cs with
    | none => ([], cs)
    | some cs =>
      match unquote cs with
      | none => ([], cs)
      | some (s, cs) =>
        let (ss, cs) := readItems fuel (cs.drop 1)
        (String.ofList s :: ss, cs)

theorem readItems_items {ss : List String} {fuel : Nat} {rest : List Char}
    (hf : ss.length ≤ fuel) (hr : expect "- \"" rest = none) :
    readItems fuel (items ss ++ rest) = (ss, rest) := by
  induction ss generalizing fuel with
  | nil =>
    cases fuel with
    | zero => rfl
    | succ fuel => simp [items, readItems, hr]
  | cons s ss ih =>
    cases fuel with
    | zero => simp at hf
    | succ fuel =>
      have hi : items (s :: ss) ++ rest =
          "- \"".toList ++ (quote s.toList ++ ("\n".toList ++ (items ss ++ rest))) := by
        simp [items]
      have ht := ih (by simpa using hf)
      rw [hi, readItems, expect_append]
      simp only [unquote_quote]
      have hd : ("\n".toList ++ (items ss ++ rest)).drop 1 = items ss ++ rest := rfl
      rw [hd, ht]
      simp

def readInt : List Char → Option Int
  | '-' :: cs => (digits? cs).map fun n => -(n : Int)
  | cs => (digits? cs).map fun n => (n : Int)

theorem readInt_itoa (n : Int) : readInt (itoa n).toList = some n := by
  cases n with
  | ofNat n =>
    have hd := digits?_itoa n
    have hm : '-' ∉ (itoa n).toList := fun h => absurd (isDigit_of_mem_itoa h) (by decide)
    change readInt (itoa (n : Int)).toList = some (n : Int)
    rw [readInt.eq_def]
    split
    · rename_i heq
      rw [heq] at hm
      exact absurd List.mem_cons_self hm
    · rw [hd]
      rfl
  | negSucc n =>
    have hs : (itoa (Int.negSucc n)).toList = '-' :: (itoa (n + 1 : Nat)).toList := by
      change ("-" ++ (n + 1).repr).toList = '-' :: ((n + 1).repr).toList
      rw [String.toList_append]
      rfl
    rw [hs, readInt, digits?_itoa]
    rfl

def marshalRecord (r : Cmd.Service) : String :=
  String.ofList (line "pid" r.pid ++ (line "configfilename" r.configFileName ++ (line "ip" r.ip ++ [])))

def unmarshalRecord (s : String) : Option Cmd.Service := do
  let (pid, cs) ← field "pid" s.toList
  let (configFileName, cs) ← field "configfilename" cs
  let (ip, _) ← field "ip" cs
  return ⟨pid, configFileName, ip⟩

theorem unmarshalRecord_marshal (r : Cmd.Service) : unmarshalRecord (marshalRecord r) = some r := by
  simp only [unmarshalRecord, marshalRecord, String.toList_ofList, field_line, Option.bind_eq_bind,
    Option.bind_some]
  rfl

def marshalConfig (c : ServiceEnvoyConfig) : String :=
  String.ofList (line "upstreamname" c.upstreamName ++ ("servers:\n".toList ++ (items c.servers ++
    (line "listenport" (itoa c.listenPort) ++ (line "domain" c.domain ++ [])))))

def unmarshalConfig (s : String) : Option ServiceEnvoyConfig := do
  let (upstreamName, cs) ← field "upstreamname" s.toList
  let cs ← expect "servers:\n" cs
  let (servers, cs) := readItems cs.length cs
  let (port, cs) ← field "listenport" cs
  let listenPort ← readInt port.toList
  let (domain, _) ← field "domain" cs
  return ⟨upstreamName, servers, listenPort, domain⟩

theorem length_le_items (ss : List String) : ss.length ≤ (items ss).length := by
  induction ss with
  | nil => exact Nat.zero_le _
  | cons s ss ih =>
    have hi : items (s :: ss) = "- \"".toList ++ (quote s.toList ++ "\n".toList) ++ items ss := by
      simp [items]
    have hl : 1 ≤ ("- \"".toList ++ (quote s.toList ++ "\n".toList)).length := by simp
    rw [hi, List.length_append, List.length_cons]
    omega

theorem unmarshalConfig_marshal (c : ServiceEnvoyConfig) :
    unmarshalConfig (marshalConfig c) = some c := by
  have hrest : ∀ cs, expect "- \"" (line "listenport" (itoa c.listenPort) ++ cs) = none := by
    intro cs
    simp [expect, line]
  have hlen : ∀ cs : List Char, c.servers.length ≤ (items c.servers ++ cs).length := by
    intro cs
    have := length_le_items c.servers
    rw [List.length_append]
    omega
  simp only [unmarshalConfig, marshalConfig, String.toList_ofList, field_line, expect_append,
    Option.bind_eq_bind, Option.bind_some, readItems_items (hlen _) (hrest _), readInt_itoa]
  rfl

end Codec

/-- The codec, with the meaning of the files and of the two kinds of bodies. -/
def quotedYaml (files : String → Option Cmd.File) (services : String → Parser.Service × Bool)
    (databases : String → Database × Bool) : Yaml where
  unmarshalFile := files
  unmarshalService := services
  unmarshalDatabase := databases
  marshalRecord := Codec.marshalRecord
  unmarshalRecord s :=
    match Codec.unmarshalRecord s with
    | some r => (r, true)
    | none => (⟨"", "", ""⟩, false)
  marshalConfig := Codec.marshalConfig
  unmarshalConfig := Codec.unmarshalConfig

theorem quotedYaml_lawful (files : String → Option Cmd.File)
    (services : String → Parser.Service × Bool) (databases : String → Database × Bool) :
    (quotedYaml files services databases).Lawful where
  record r := by simp [quotedYaml, Codec.unmarshalRecord_marshal]
  config c := Codec.unmarshalConfig_marshal c

end PrivatePaas

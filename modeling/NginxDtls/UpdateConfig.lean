import NginxDtls.Controller

/-! The configuration that the Node process writes for nginx (`nginx_server.ts`). `updateConfig` edits the directives of
a template through the package `nginx-conf`, and addresses a block by its name and its place among the blocks of that
name: the servers of every `UpStream` entry go to the place 0. -/

namespace NginxDtls.UpdateConfig

/-- The names of the directives that the template has and that `updateConfig` writes. -/
inductive Name where
  | workerProcesses | masterProcess | daemon | errorLog | pid | workerRlimitNofile | events | workerConnections
  | stream | upstream | server | listen | proxySsl | probeEnable | probeTimeout | proxySslSessionReuse | proxyTimeout
  | proxyBufferSize | proxySslVerify | proxySslProtocols | proxySslCertificate | proxySslCertificateKey
  | proxySslCiphers | sslCiphers | sslCertificate | sslCertificateKey | sslSessionTimeout | sslProtocols
  | sslHandshakeTimeout | proxyPass
deriving DecidableEq

/-- A directive: its name, its value, and the directives of its block. -/
inductive Directive where
  | mk (name : Name) (value : JsString) (block : List Directive)

namespace Directive

def name : Directive → Name
  | mk name _ _ => name

def value : Directive → JsString
  | mk _ value _ => value

def block : Directive → List Directive
  | mk _ _ block => block

/-- The directive with its block edited. -/
def edit (f : List Directive → List Directive) : Directive → Directive
  | mk name value block => mk name value (f block)

@[simp]
theorem edit_name (f : List Directive → List Directive) (d : Directive) : (d.edit f).name = d.name := by
  cases d
  rfl

@[simp]
theorem edit_value (f : List Directive → List Directive) (d : Directive) : (d.edit f).value = d.value := by
  cases d
  rfl

@[simp]
theorem edit_block (f : List Directive → List Directive) (d : Directive) : (d.edit f).block = f d.block := by
  cases d
  rfl

end Directive

/-! ### The package -/

/-- `_add` appends a directive. -/
def add (name : Name) (value : JsString) (block : List Directive) (ds : List Directive) : List Directive :=
  ds ++ [.mk name value block]

/-- `_remove` deletes one directive of the name, if there is one. -/
structure Remove where
  run : Name → List Directive → List Directive
  absent : ∀ {name ds}, (∀ d ∈ ds, d.name ≠ name) → run name ds = ds
  present : ∀ {name ds}, (∃ d ∈ ds, d.name = name) → ∃ before d after,
    ds = before ++ d :: after ∧ d.name = name ∧ run name ds = before ++ after

/-- The block at place 0 of a name. -/
def first (name : Name) (ds : List Directive) : Option Directive := ds.find? (·.name = name)

/-- Editing the block at place 0 of a name, which must be there. -/
def editFirst (name : Name) (f : List Directive → List Directive) : List Directive → Option (List Directive)
  | [] => none
  | d :: ds => if d.name = name then some (d.edit f :: ds) else (editFirst name f ds).map (d :: ·)

/-- The same through `?.`, where a block that is not there is left out. -/
def editFirst? (name : Name) (f : List Directive → List Directive) (ds : List Directive) : List Directive :=
  (editFirst name f ds).getD ds

/-! ### The class -/

/-- `Server` of the configuration. -/
structure Server where
  listen : JsString
  proxySSL : Bool
  probeUdp : Bool

/-- An entry of `UpStream`, whose list of servers may be null. -/
structure UpStream (N : Type) where
  name : JsString
  server : Option (List (UpstreamServer N))

/-- The configuration of the class; the list of upstreams and its entries may be null. -/
structure NginxConfig (N : Type) where
  server : Server
  upStream : Option (List (Option (UpStream N)))

/-- What a call of `updateConfig` has returned, and the file that it has flushed. -/
structure Update where
  success : Bool
  flushed : Option (List Directive)

section Update

variable {N : Type} (toText : N → JsString) (remove : Remove)

/-- The text of a server in a directive. -/
def serverText (server : UpstreamServer N) : JsString := server.ip ++ ':' :: toText server.port

/-- `upstream?.Server && upstream?.Server.length > 0`, with the servers. -/
def filled (upstream : Option (UpStream N)) : Option (JsString × List (UpstreamServer N)) :=
  match upstream with
  | some ⟨name, some (server :: servers)⟩ => some (name, server :: servers)
  | _ => none

/-- One turn of the inner `forEach`. -/
def addServer (stream : List Directive) (server : UpstreamServer N) : Option (List Directive) :=
  editFirst .upstream (add .server (serverText toText server) []) stream

/-- One turn of the outer `forEach`. -/
def addUpstream (stream : List Directive) (upstream : Option (UpStream N)) : Option (List Directive) :=
  match filled upstream with
  | none => some stream
  | some (name, servers) =>
    servers.foldlM (addServer toText)
      (editFirst? .server (add .proxyPass name []) (add .upstream name [] stream))

/-- The new `listen` of the server. -/
def updateListen (listen : JsString) (stream : List Directive) : Option (List Directive) :=
  if 0 < listen.length then
    (editFirst .server (remove.run .listen) stream).bind (editFirst .server (add .listen listen []))
  else some stream

/-- The edits of the `stream` block for a configuration with servers; `none` is an exception. -/
def updateStream (config : NginxConfig N) (stream : List Directive) : Option (List Directive) := do
  let stream ← updateListen remove config.server.listen stream
  let stream := editFirst? .server (remove.run .proxySsl) stream
  let stream := editFirst? .server
    (add .proxySsl (if config.server.proxySSL then ['o', 'n'] else ['o', 'f', 'f']) []) stream
  let stream := editFirst? .server (remove.run .probeEnable) stream
  let probe := config.server.probeUdp &&
    (decide (['u', 'd', 'p'] <:+: config.server.listen) || decide (['U', 'D', 'P'] <:+: config.server.listen))
  let stream := editFirst? .server (add .probeEnable (if probe then ['o', 'n'] else ['o', 'f', 'f']) []) stream
  match config.upStream with
  | some (upstream :: upstreams) =>
    let stream := remove.run .upstream stream
    let stream := editFirst? .server (remove.run .proxyPass) stream
    (upstream :: upstreams).foldlM (addUpstream toText) stream
  | _ => some (remove.run .upstream (editFirst? .server (remove.run .proxyPass) stream))

/-- The check for servers: whether there are none, or `none` where it throws. -/
def upstreamEmpty (config : NginxConfig N) : Option Bool :=
  match config.upStream with
  | none => some true
  | some [] => some true
  | some (none :: _) => none
  | some (some upstream :: _) => some (upstream.server.elim true List.isEmpty)

/-- `updateConfig` with the template that has been read, if it could be. -/
def updateConfig (config : NginxConfig N) (template : Option (List Directive)) : Update :=
  match template with
  | none => ⟨false, none⟩
  | some conf =>
    match first .stream conf with
    | none => ⟨false, none⟩
    | some stream =>
      match upstreamEmpty config with
      | none => ⟨false, none⟩
      | some true =>
        ⟨true, some (editFirst? .stream (fun ds => remove.run .upstream (remove.run .server ds)) conf)⟩
      | some false =>
        match updateStream toText remove config stream.block with
        | none => ⟨false, none⟩
        | some ds => ⟨true, some (editFirst? .stream (fun _ => ds) conf)⟩

end Update

/-! ### The upstream blocks of a file -/

/-- The values of the directives of a name. -/
def valuesOf (name : Name) (ds : List Directive) : List JsString := (ds.filter (·.name = name)).map Directive.value

/-- The upstream blocks of a `stream` block, each with its name and its servers. -/
def upstreamsOf (ds : List Directive) : List (JsString × List JsString) :=
  (ds.filter (·.name = .upstream)).map fun d => (d.value, valuesOf .server d.block)

section Views

variable {ds ds' : List Directive} {name : Name}

theorem valuesOf_add (name : Name) (value : JsString) (block ds : List Directive) :
    valuesOf name (add name value block ds) = valuesOf name ds ++ [value] := by
  simp [valuesOf, add, List.filter_append, Directive.name, Directive.value]

theorem upstreamsOf_add_upstream (value : JsString) (ds : List Directive) :
    upstreamsOf (add .upstream value [] ds) = upstreamsOf ds ++ [(value, [])] := by
  simp [upstreamsOf, valuesOf, add, List.filter_append, Directive.name, Directive.value, Directive.block]

theorem upstreamsOf_append (ds ds' : List Directive) :
    upstreamsOf (ds ++ ds') = upstreamsOf ds ++ upstreamsOf ds' := by
  rw [upstreamsOf, List.filter_append, List.map_append]
  rfl

theorem upstreamsOf_cons_of_ne {d : Directive} (h : d.name ≠ .upstream) (ds : List Directive) :
    upstreamsOf (d :: ds) = upstreamsOf ds := by
  rw [upstreamsOf, List.filter_cons_of_neg (by simpa using h)]
  rfl

theorem upstreamsOf_cons {d : Directive} (h : d.name = .upstream) (ds : List Directive) :
    upstreamsOf (d :: ds) = (d.value, valuesOf .server d.block) :: upstreamsOf ds := by
  rw [upstreamsOf, List.filter_cons_of_pos (by simpa using h)]
  rfl

/-- An edit of a block that is no upstream. -/
theorem upstreamsOf_editFirst (hname : name ≠ .upstream) {f : List Directive → List Directive}
    (h : editFirst name f ds = some ds') : upstreamsOf ds' = upstreamsOf ds := by
  induction ds generalizing ds' with
  | nil => cases h
  | cons d ds ih =>
      rw [editFirst] at h
      by_cases hd : d.name = name
      · rw [if_pos hd, Option.some.injEq] at h
        have hne : d.name ≠ .upstream := hd ▸ hname
        rw [← h, upstreamsOf_cons_of_ne hne, upstreamsOf_cons_of_ne (by rwa [Directive.edit_name])]
      · rw [if_neg hd] at h
        obtain ⟨ds'', hds, rfl⟩ := Option.map_eq_some_iff.mp h
        by_cases hup : d.name = .upstream
        · rw [upstreamsOf_cons hup, upstreamsOf_cons hup, ih hds]
        · rw [upstreamsOf_cons_of_ne hup, upstreamsOf_cons_of_ne hup, ih hds]

theorem upstreamsOf_editFirst? (hname : name ≠ .upstream) (f : List Directive → List Directive)
    (ds : List Directive) : upstreamsOf (editFirst? name f ds) = upstreamsOf ds := by
  rw [editFirst?]
  cases h : editFirst name f ds with
  | none => rfl
  | some ds' => exact upstreamsOf_editFirst hname h

/-- The block at place 0 is the first upstream. -/
theorem upstreamsOf_addServer {upstream : JsString} {servers : List JsString} {others : List (JsString × List JsString)}
    (text : JsString) (h : upstreamsOf ds = (upstream, servers) :: others) :
    ∃ ds', editFirst .upstream (add .server text []) ds = some ds' ∧
      upstreamsOf ds' = (upstream, servers ++ [text]) :: others := by
  induction ds with
  | nil => cases h
  | cons d ds ih =>
      by_cases hd : d.name = .upstream
      · refine ⟨_, by rw [editFirst, if_pos hd], ?_⟩
        rw [upstreamsOf_cons hd, List.cons.injEq, Prod.mk.injEq] at h
        obtain ⟨⟨hvalue, hservers⟩, hothers⟩ := h
        rw [upstreamsOf_cons (by rwa [Directive.edit_name]), Directive.edit_value, Directive.edit_block, valuesOf_add,
          hvalue, hservers, hothers]
      · rw [upstreamsOf_cons_of_ne hd] at h
        obtain ⟨ds', hedit, hup⟩ := ih h
        refine ⟨d :: ds', by rw [editFirst, if_neg hd, hedit]; rfl, ?_⟩
        rw [upstreamsOf_cons_of_ne hd, hup]

/-- The removal of the only upstream. -/
theorem upstreamsOf_remove (remove : Remove) (h : (upstreamsOf ds).length ≤ 1) :
    upstreamsOf (remove.run .upstream ds) = [] := by
  by_cases hsome : ∃ d ∈ ds, d.name = .upstream
  · obtain ⟨before, d, after, rfl, hd, hrun⟩ := remove.present hsome
    rw [upstreamsOf_append, upstreamsOf_cons hd, List.length_append, List.length_cons] at h
    rw [hrun, upstreamsOf_append, List.append_eq_nil_iff, ← List.length_eq_zero_iff, ← List.length_eq_zero_iff]
    omega
  · have hnone : ∀ d ∈ ds, d.name ≠ .upstream := fun d hd heq => hsome ⟨d, hd, heq⟩
    rw [remove.absent hnone, upstreamsOf, List.filter_eq_nil_iff.mpr (by simpa using hnone)]
    rfl

end Views

/-! ### The loops -/

section Loops

variable {N : Type} {toText : N → JsString}

/-- The block of an entry. -/
def blockOf (toText : N → JsString) (entry : JsString × List (UpstreamServer N)) : JsString × List JsString :=
  (entry.1, entry.2.map (serverText toText))

theorem addServers_upstreams {upstream : JsString} {others : List (JsString × List JsString)}
    (servers : List (UpstreamServer N)) {held : List JsString} {ds : List Directive}
    (h : upstreamsOf ds = (upstream, held) :: others) :
    ∃ ds', servers.foldlM (addServer toText) ds = some ds' ∧
      upstreamsOf ds' = (upstream, held ++ servers.map (serverText toText)) :: others := by
  induction servers generalizing held ds with
  | nil => exact ⟨ds, rfl, by rw [h, List.map_nil, List.append_nil]⟩
  | cons server servers ih =>
      obtain ⟨ds₁, hadd, hup⟩ := upstreamsOf_addServer (serverText toText server) h
      obtain ⟨ds₂, hfold, hup₂⟩ := ih hup
      refine ⟨ds₂, ?_, by rw [hup₂, List.append_assoc]; rfl⟩
      rw [List.foldlM_cons, addServer, hadd]
      exact hfold

/-- What the loops add behind the first block: all servers go to it, and the blocks of the others stay empty. -/
theorem addUpstreams_upstreams {upstream : JsString} (entries : List (Option (UpStream N))) {held : List JsString}
    {others : List (JsString × List JsString)} {ds : List Directive}
    (h : upstreamsOf ds = (upstream, held) :: others) :
    ∃ ds', entries.foldlM (addUpstream toText) ds = some ds' ∧
      upstreamsOf ds' = (upstream, held ++ ((entries.filterMap filled).flatMap fun e => (blockOf toText e).2)) ::
        (others ++ (entries.filterMap filled).map fun e => (e.1, [])) := by
  induction entries generalizing held others ds with
  | nil => exact ⟨ds, rfl, by simpa using h⟩
  | cons entry entries ih =>
      rw [List.foldlM_cons, addUpstream]
      cases hfilled : filled entry with
      | none =>
          obtain ⟨ds', hfold, hup⟩ := ih h
          exact ⟨ds', hfold, by rw [hup, List.filterMap_cons_none hfilled]⟩
      | some e =>
          obtain ⟨name, servers⟩ := e
          have hadded : upstreamsOf (editFirst? .server (add .proxyPass name []) (add .upstream name [] ds)) =
              (upstream, held) :: (others ++ [(name, [])]) := by
            rw [upstreamsOf_editFirst? (by decide), upstreamsOf_add_upstream, h]
            rfl
          obtain ⟨ds₁, hservers, hup₁⟩ := @addServers_upstreams N toText _ _ servers _ _ hadded
          obtain ⟨ds₂, hfold, hup₂⟩ := ih hup₁
          refine ⟨ds₂, ?_, ?_⟩
          · dsimp only
            rw [hservers]
            exact hfold
          · rw [hup₂, List.filterMap_cons_some hfilled, List.flatMap_cons, List.map_cons, List.append_assoc,
              List.append_assoc]
            rfl

/-- The loops over a list whose first entry has servers, in a block without upstreams. -/
theorem addUpstreams_first {entry : Option (UpStream N)} {e : JsString × List (UpstreamServer N)}
    (hfilled : filled entry = some e) (entries : List (Option (UpStream N))) {ds : List Directive}
    (h : upstreamsOf ds = []) :
    ∃ ds', (entry :: entries).foldlM (addUpstream toText) ds = some ds' ∧
      upstreamsOf ds' = (e.1, (blockOf toText e).2 ++
        ((entries.filterMap filled).flatMap fun e => (blockOf toText e).2)) ::
          (entries.filterMap filled).map fun e => (e.1, []) := by
  have hadded : upstreamsOf (editFirst? .server (add .proxyPass e.1 []) (add .upstream e.1 [] ds)) = [(e.1, [])] := by
    rw [upstreamsOf_editFirst? (by decide), upstreamsOf_add_upstream, h]
    rfl
  obtain ⟨ds₁, hservers, hup₁⟩ := @addServers_upstreams N toText _ _ e.2 _ _ hadded
  obtain ⟨ds₂, hfold, hup₂⟩ := @addUpstreams_upstreams N toText _ entries _ _ _ hup₁
  refine ⟨ds₂, ?_, hup₂⟩
  rw [List.foldlM_cons, addUpstream, hfilled]
  dsimp only
  rw [hservers]
  exact hfold

end Loops

/-! ### The generated file -/

section Generated

variable {N : Type} {toText : N → JsString} {remove : Remove}

/-- The `stream` block of `nginx-template.conf`. -/
def templateStream : Directive :=
  .mk .stream [] [
    .mk .errorLog "logs/error.log debug".toList [],
    .mk .upstream "slave".toList [.mk .server "127.0.0.1:666".toList []],
    .mk .server [] [
      .mk .listen "25157 udp ssl reuseport".toList [],
      .mk .proxySsl "off".toList [],
      .mk .probeEnable "on".toList [],
      .mk .probeTimeout "30s".toList [],
      .mk .proxySslSessionReuse "off".toList [],
      .mk .proxyTimeout "50s".toList [],
      .mk .proxyBufferSize "128k".toList [],
      .mk .proxySslVerify "off".toList [],
      .mk .proxySslProtocols "DTLSv1.2".toList [],
      .mk .proxySslCertificate "certs/nginx.fastudpslave.com.crt".toList [],
      .mk .proxySslCertificateKey "certs/nginx.fastudpslave.com.key".toList [],
      .mk .proxySslCiphers "MEDIUM:!aNULL:!MD5".toList [],
      .mk .sslCiphers "MEDIUM:!aNULL:!MD5".toList [],
      .mk .sslCertificate "certs/nginx.fastudpslave.com.crt".toList [],
      .mk .sslCertificateKey "certs/nginx.fastudpslave.com.key".toList [],
      .mk .sslSessionTimeout "1m".toList [],
      .mk .sslProtocols "DTLSv1.2".toList [],
      .mk .sslHandshakeTimeout "5".toList []]]

/-- The directives of `nginx-template.conf`. -/
def nginxTemplate : List Directive := [
  .mk .workerProcesses "auto".toList [],
  .mk .masterProcess "on".toList [],
  .mk .daemon "off".toList [],
  .mk .errorLog "logs/error.log debug".toList [],
  .mk .pid "nginx.pid".toList [],
  .mk .workerRlimitNofile "65535".toList [],
  .mk .events [] [.mk .workerConnections "10240".toList []],
  templateStream]

/-- The upstream blocks of a file. -/
def generated (conf : List Directive) : List (JsString × List JsString) :=
  (first .stream conf).elim [] fun stream => upstreamsOf stream.block

/-- The file has one upstream block for each entry with servers, and in it the servers of the entry. -/
def ServersKept (toText : N → JsString) (config : NginxConfig N) (update : Update) : Prop :=
  ∃ conf, update.flushed = some conf ∧
    (generated conf).Perm (((config.upStream.getD []).filterMap filled).map (blockOf toText))

theorem editFirst_some {name : Name} (f : List Directive → List Directive) {ds : List Directive}
    (h : ∃ d ∈ ds, d.name = name) : ∃ ds', editFirst name f ds = some ds' ∧ ∃ d ∈ ds', d.name = name := by
  induction ds with
  | nil =>
      obtain ⟨d, hd, -⟩ := h
      cases hd
  | cons d ds ih =>
      by_cases hd : d.name = name
      · exact ⟨_, by rw [editFirst, if_pos hd], d.edit f, List.mem_cons_self, by rw [Directive.edit_name, hd]⟩
      · obtain ⟨d', hmem, hname⟩ := h
        rcases List.mem_cons.mp hmem with rfl | hmem
        · exact absurd hname hd
        · obtain ⟨ds', hedit, d'', hd'', hname''⟩ := ih ⟨d', hmem, hname⟩
          exact ⟨_, by rw [editFirst, if_neg hd, hedit]; rfl, d'', List.mem_cons_of_mem _ hd'', hname''⟩

theorem updateListen_upstreams (listen : JsString) {ds : List Directive} (h : ∃ d ∈ ds, d.name = .server) :
    ∃ ds', updateListen remove listen ds = some ds' ∧ upstreamsOf ds' = upstreamsOf ds := by
  rw [updateListen]
  split
  swap
  · exact ⟨ds, rfl, rfl⟩
  obtain ⟨ds₁, hremoved, hserver⟩ := editFirst_some (remove.run .listen) h
  obtain ⟨ds₂, hadded, -⟩ := editFirst_some (add .listen listen []) hserver
  refine ⟨ds₂, by rw [hremoved, Option.bind_some, hadded], ?_⟩
  rw [upstreamsOf_editFirst (by decide) hadded, upstreamsOf_editFirst (by decide) hremoved]

/-- The edited `stream` block of a template with a server and at most one upstream. -/
theorem updateStream_upstreams {config : NginxConfig N} {entry : Option (UpStream N)}
    {entries : List (Option (UpStream N))} {e : JsString × List (UpstreamServer N)} {ds : List Directive}
    (hup : config.upStream = some (entry :: entries)) (hfilled : filled entry = some e)
    (hserver : ∃ d ∈ ds, d.name = .server) (hone : (upstreamsOf ds).length ≤ 1) :
    ∃ ds', updateStream toText remove config ds = some ds' ∧
      upstreamsOf ds' = (e.1, (blockOf toText e).2 ++
        ((entries.filterMap filled).flatMap fun e => (blockOf toText e).2)) ::
          (entries.filterMap filled).map fun e => (e.1, []) := by
  obtain ⟨ds₁, hrun, hup₁⟩ := @updateListen_upstreams remove config.server.listen ds hserver
  unfold updateStream
  rw [hrun, hup]
  refine addUpstreams_first hfilled entries ?_
  rw [upstreamsOf_editFirst? (by decide)]
  refine upstreamsOf_remove remove ?_
  simp only [upstreamsOf_editFirst? (show Name.server ≠ .upstream by decide), hup₁, hone]

/-- What is flushed for a configuration whose first entry has servers. -/
theorem updateConfig_generated {config : NginxConfig N} {entry : Option (UpStream N)}
    {entries : List (Option (UpStream N))} {e : JsString × List (UpstreamServer N)}
    (hup : config.upStream = some (entry :: entries)) (hfilled : filled entry = some e) :
    ∃ conf, updateConfig toText remove config (some nginxTemplate) = ⟨true, some conf⟩ ∧
      generated conf = (e.1, (blockOf toText e).2 ++
        ((entries.filterMap filled).flatMap fun e => (blockOf toText e).2)) ::
          (entries.filterMap filled).map fun e => (e.1, []) := by
  obtain ⟨ds, hrun, hds⟩ := @updateStream_upstreams N toText remove config entry entries e templateStream.block
    hup hfilled ⟨_, List.mem_cons_of_mem _ (List.mem_cons_of_mem _ List.mem_cons_self), rfl⟩ (le_refl 1)
  have hempty : upstreamEmpty config = some false := by
    rw [upstreamEmpty, hup]
    unfold filled at hfilled
    split at hfilled
    · rfl
    · cases hfilled
  refine ⟨editFirst? .stream (fun _ => ds) nginxTemplate, ?_, hds⟩
  have hstream : first .stream nginxTemplate = some templateStream := rfl
  simp only [updateConfig, hstream, hempty, hrun]

/-- Of every configuration whose first entry has servers: the servers of the entries are in their own blocks exactly when
no other entry has servers. -/
theorem serversKept_iff (toText : N → JsString) (remove : Remove) {config : NginxConfig N} {entry : Option (UpStream N)}
    {entries : List (Option (UpStream N))} (hup : config.upStream = some (entry :: entries))
    (hfirst : (filled entry).isSome = true) :
    ServersKept toText config (updateConfig toText remove config (some nginxTemplate)) ↔
      ∀ other ∈ entries, filled other = none := by
  obtain ⟨e, hfilled⟩ := Option.isSome_iff_exists.mp hfirst
  obtain ⟨conf, hrun, hgenerated⟩ := @updateConfig_generated N toText remove _ _ _ _ hup hfilled
  have hentries : ((config.upStream.getD []).filterMap filled).map (blockOf toText) =
      blockOf toText e :: (entries.filterMap filled).map (blockOf toText) := by
    rw [hup, Option.getD_some, List.filterMap_cons_some hfilled, List.map_cons]
  rw [ServersKept, hrun, hentries]
  constructor
  · rintro ⟨conf', hconf, hperm⟩
    cases hconf
    rw [hgenerated] at hperm
    -- another block stays empty, and an entry with servers has no such block
    by_contra hother
    push Not at hother
    obtain ⟨other, hmem, hne⟩ := hother
    obtain ⟨e', he'⟩ := Option.ne_none_iff_exists'.mp hne
    have hmem' : e' ∈ entries.filterMap filled := List.mem_filterMap.mpr ⟨other, hmem, he'⟩
    have hin : (e'.1, []) ∈ blockOf toText e :: (entries.filterMap filled).map (blockOf toText) :=
      hperm.subset (List.mem_cons_of_mem _ (List.mem_map_of_mem hmem'))
    have hblock : ∀ {other : Option (UpStream N)} {e : JsString × List (UpstreamServer N)}, filled other = some e →
        blockOf toText e ≠ (e'.1, []) := by
      intro other e he heq
      unfold filled at he
      split at he
      · cases he
        cases heq
      · cases he
    rcases List.mem_cons.mp hin with heq | hin
    · exact hblock hfilled heq.symm
    · obtain ⟨e'', he'', heq⟩ := List.mem_map.mp hin
      obtain ⟨other', -, hfilled'⟩ := List.mem_filterMap.mp he''
      exact hblock hfilled' heq
  · intro hnone
    refine ⟨conf, rfl, ?_⟩
    rw [hgenerated, List.filterMap_eq_nil_iff.mpr hnone, List.flatMap_nil, List.append_nil]
    exact List.Perm.refl _

/-- The package's removal of the first directive of a name. -/
def removeFirst : Remove where
  run name ds := ds.eraseP (·.name = name)
  absent h := List.eraseP_of_forall_not (by simpa using h)
  present := by
    rintro name ds ⟨d, hd, hname⟩
    obtain ⟨d, before, after, -, hfound, hds, herase⟩ :=
      @List.exists_of_eraseP Directive (·.name = name) ds d hd (decide_eq_true hname)
    exact ⟨before, d, after, hds, of_decide_eq_true hfound, herase⟩

/-- A configuration with the entries of the list. -/
def configOf (upStream : List (Option (UpStream ℕ))) : NginxConfig ℕ := ⟨⟨[], true, true⟩, some upStream⟩

/-- One server for an upstream, with the port as a digit. -/
def oneServer (name : Char) (port : ℕ) : Option (UpStream ℕ) := some ⟨[name], some [⟨['h'], port⟩]⟩

theorem serversKept_iff_single : (filled (oneServer 'a' 1)).isSome = true ∧
    (ServersKept (fun n => [n.digitChar]) (configOf [oneServer 'a' 1, none])
      (updateConfig (fun n => [n.digitChar]) removeFirst (configOf [oneServer 'a' 1, none]) (some nginxTemplate)) ↔
        ∀ other ∈ [none], filled (N := ℕ) other = none) :=
  ⟨rfl, serversKept_iff _ removeFirst rfl rfl⟩

/-- Two upstreams: the first gets both servers, and the second none. -/
theorem servers_in_first_block :
    ¬ServersKept (fun n => [n.digitChar]) (configOf [oneServer 'a' 1, oneServer 'b' 2])
      (updateConfig (fun n => [n.digitChar]) removeFirst (configOf [oneServer 'a' 1, oneServer 'b' 2])
        (some nginxTemplate)) := by
  rintro ⟨conf, hconf, hperm⟩
  cases hconf
  exact absurd (hperm.subset (show (['b'], []) ∈ _ from List.mem_cons_of_mem _ List.mem_cons_self)) (by decide)

end Generated

end NginxDtls.UpdateConfig

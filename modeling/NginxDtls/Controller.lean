import NginxDtls.Text

/-! The controller of the Node process (`controller.ts`), which keeps the list of upstream servers in step with the
master. It compares texts and not lists: `init` stores the list joined with commas, and `heartbeat` compares it
with the list joined with colons. -/

namespace NginxDtls

open Text

/-- A string of the source. -/
abbrev JsString : Type := List Char

/-- `nextSkipUrl` of a response, which may be absent. -/
abbrev UrlList : Type := Option (List JsString)

/-- An entry of `upstreamServer`; `N` are the numbers of the language. -/
structure UpstreamServer (N : Type) where
  ip : JsString
  port : N

/-- The fields of the class that the two functions write. -/
structure Controller (N : Type) where
  idcCode : JsString
  minPort : N
  maxPort : N
  usernameLength : N
  heartbeatTimeout : N
  upstreamServer : List (UpstreamServer N)
  /-- `none` is `undefined` -/
  upstreamServerStr : Option JsString

def httpOk : Nat := 200

/-- A response: the HTTP status, the code in the body, and the data field. -/
structure MasterResponse (D : Type) where
  status : Nat
  code : Option Nat
  data : Option D

structure InitData (N : Type) where
  idcCode : JsString
  minPort : N
  maxPort : N
  usernameLength : N
  heatBeatTimeOut : Option N
  nextSkipUrl : UrlList

structure HeartbeatData where
  register : Bool
  nextSkipUrl : UrlList

section Controller

variable {N : Type} (toNumber : JsString → N)

/-- One entry: it must have two parts. `toNumber` is the unary plus. -/
def parseUrl (url : JsString) : Option (UpstreamServer N) :=
  match url.splitOn ':' with
  | [ip, port] => some ⟨ip, toNumber port⟩
  | _ => none

/-- The servers of a list. -/
def parseUrls (urls : UrlList) : List (UpstreamServer N) := (urls.getD []).filterMap (parseUrl toNumber)

namespace Controller

/-- `init`, with what it returns. -/
def init (c : Controller N) (res : MasterResponse (InitData N)) : Controller N × Bool :=
  if res.status ≠ httpOk ∨ res.code ≠ some httpOk then (c, false)
  else match res.data with
    | none => (c, false)
    | some data =>
      ({ idcCode := if c.idcCode.length = 0 then data.idcCode else c.idcCode
         minPort := data.minPort
         maxPort := data.maxPort
         usernameLength := data.usernameLength
         heartbeatTimeout := data.heatBeatTimeOut.getD c.heartbeatTimeout
         upstreamServer := parseUrls toNumber data.nextSkipUrl
         upstreamServerStr := match data.nextSkipUrl with
           | some urls => some (joinWith ',' urls)
           | none => some [] }, true)

/-- What `heartbeat` returns, and whether it has sent `SIGHUP`. -/
structure Beat (N : Type) where
  controller : Controller N
  ret : Bool
  sighup : Bool

/-- `heartbeat`; without a data field it throws. -/
def heartbeat (c : Controller N) (res : MasterResponse HeartbeatData) : Option (Beat N) :=
  if res.status ≠ httpOk ∨ res.code ≠ some httpOk then some ⟨c, false, false⟩
  else match res.data with
    | none => none
    | some data =>
      if data.register then some ⟨c, false, false⟩
      else
        let currentServerStr := data.nextSkipUrl.map (joinWith ':')
        if c.upstreamServerStr ≠ currentServerStr then
          some ⟨{ c with
            upstreamServer := parseUrls toNumber data.nextSkipUrl
            upstreamServerStr := currentServerStr }, true, true⟩
        else some ⟨c, true, false⟩

end Controller

/-! ### Runs -/

/-- A successful response to `init`. -/
def initResponse (data : InitData N) : MasterResponse (InitData N) := ⟨httpOk, some httpOk, some data⟩

/-- A successful response to `heartbeat`. -/
def heartbeatResponse (urls : UrlList) : MasterResponse HeartbeatData := ⟨httpOk, some httpOk, some ⟨false, urls⟩⟩

/-- The heartbeats agree with the master: each one sends `SIGHUP` exactly when its list differs from the one before,
and leaves the servers of its list. -/
def HeartbeatsAgree : Controller N → UrlList → List UrlList → Prop
  | _, _, [] => True
  | c, previous, urls :: rest => ∃ beat, c.heartbeat toNumber (heartbeatResponse urls) = some beat ∧
      (beat.sighup = true ↔ urls ≠ previous) ∧ beat.controller.upstreamServer = parseUrls toNumber urls ∧
      HeartbeatsAgree beat.controller urls rest

/-- After `init` and after every heartbeat the controller agrees with the master. -/
def ControllerAgrees (c : Controller N) (data : InitData N) (beats : List UrlList) : Prop :=
  (c.init toNumber (initResponse data)).2 = true ∧
    (c.init toNumber (initResponse data)).1.upstreamServer = parseUrls toNumber data.nextSkipUrl ∧
    HeartbeatsAgree toNumber (c.init toNumber (initResponse data)).1 data.nextSkipUrl beats

/-! ### The texts -/

/-- The text that `heartbeat` compares and stores. -/
def beatText (urls : UrlList) : Option JsString := urls.map (joinWith ':')

/-- Different lists with the same parts between the colons. -/
def Regrouped (urls urls' : UrlList) : Prop := urls' ≠ urls ∧ beatText urls' = beatText urls

/-- The first heartbeat misreads what `init` has stored: the same list of two or more entries, or no list again, or
another list whose text with colons is the stored one. -/
def InitMisread (urls urls' : UrlList) : Prop :=
  match urls with
  | none => urls' = none ∨ beatText urls' = some []
  | some l => (2 ≤ l.length ∧ urls' = some l) ∨ (urls' ≠ some l ∧ beatText urls' = some (joinWith ',' l))

/-- The lists that the code tells apart: no list regroups the one before it, and the first one is not misread. -/
def ToldApart (urls : UrlList) : List UrlList → Prop
  | [] => True
  | first :: rest => ¬InitMisread urls first ∧ List.IsChain (fun u u' => ¬Regrouped u u') (first :: rest)

/-- A list of `ip:port` entries. -/
def IpPorts (urls : UrlList) : Prop :=
  ∀ url ∈ urls.getD [], ',' ∉ url ∧ ∃ ip port : JsString, url = ip ++ ':' :: port ∧ ':' ∉ ip ∧ ':' ∉ port

/-! ### What a heartbeat does -/

/-- A controller that holds a list as a heartbeat leaves it. -/
def Controller.holding (c : Controller N) (urls : UrlList) : Controller N :=
  { c with upstreamServer := parseUrls toNumber urls, upstreamServerStr := beatText urls }

variable {toNumber}

theorem heartbeat_eq (c : Controller N) (urls : UrlList) :
    c.heartbeat toNumber (heartbeatResponse urls) =
      some (if c.upstreamServerStr ≠ beatText urls then ⟨c.holding toNumber urls, true, true⟩
        else ⟨c, true, false⟩) := by
  rw [Controller.heartbeat, if_neg (by simp [heartbeatResponse])]
  simp only [heartbeatResponse, Bool.false_eq_true, if_false]
  by_cases h : c.upstreamServerStr = urls.map (joinWith ':')
  · rw [if_neg (not_not.mpr h), beatText, if_neg (not_not.mpr h)]
  · rw [if_pos h, beatText, if_pos h]
    rfl

/-- One heartbeat agrees if the texts differ exactly when the lists do; then the controller holds the new list. -/
theorem heartbeatsAgree_cons {c : Controller N} {previous urls : UrlList} {rest : List UrlList}
    (hserver : c.upstreamServer = parseUrls toNumber previous) :
    HeartbeatsAgree toNumber c previous (urls :: rest) ↔
      (c.upstreamServerStr ≠ beatText urls ↔ urls ≠ previous) ∧
        HeartbeatsAgree toNumber (c.holding toNumber urls) urls rest := by
  rw [HeartbeatsAgree, heartbeat_eq]
  by_cases h : c.upstreamServerStr = beatText urls
  · rw [if_neg (not_not.mpr h)]
    constructor
    · rintro ⟨beat, hbeat, hsighup, hparse, hrest⟩
      obtain rfl := Option.some.inj hbeat
      have hsame : c.holding toNumber urls = c := by
        rw [Controller.holding, ← hparse, ← h]
      refine ⟨?_, hsame ▸ hrest⟩
      simpa [h] using hsighup
    · rintro ⟨hiff, hrest⟩
      have heq : urls = previous := by simpa [h] using hiff
      have hsame : c.holding toNumber urls = c := by
        rw [Controller.holding, heq, ← hserver, ← heq, ← h]
      refine ⟨_, rfl, by simp [heq], by rw [heq]; exact hserver, ?_⟩
      rwa [hsame] at hrest
  · rw [if_pos h]
    constructor
    · rintro ⟨beat, hbeat, hsighup, hparse, hrest⟩
      obtain rfl := Option.some.inj hbeat
      exact ⟨by simpa [h] using hsighup, hrest⟩
    · rintro ⟨hiff, hrest⟩
      exact ⟨_, rfl, by simpa [h] using hiff, rfl, hrest⟩

/-- Among heartbeats only regrouped lists are confused. -/
theorem heartbeatsAgree_iff (c : Controller N) (urls : UrlList) (beats : List UrlList) :
    HeartbeatsAgree toNumber (c.holding toNumber urls) urls beats ↔
      List.IsChain (fun u u' => ¬Regrouped u u') (urls :: beats) := by
  induction beats generalizing c urls with
  | nil => simp [HeartbeatsAgree]
  | cons next rest ih =>
      rw [heartbeatsAgree_cons rfl, List.isChain_cons_cons]
      have hstep : ((c.holding toNumber urls).upstreamServerStr ≠ beatText next ↔ next ≠ urls) ↔
          ¬Regrouped urls next := by
        show (beatText urls ≠ beatText next ↔ next ≠ urls) ↔ ¬(next ≠ urls ∧ beatText next = beatText urls)
        constructor
        · rintro hiff ⟨hne, htext⟩
          exact hiff.mpr hne htext.symm
        · intro hnot
          constructor
          · rintro htext rfl
            exact htext rfl
          · intro hne htext
            exact hnot ⟨hne, htext.symm⟩
      have hhold : (c.holding toNumber urls).holding toNumber next = c.holding toNumber next := rfl
      rw [hstep, hhold, ih]

theorem joinWith_ne_of_two {l : List JsString} (h : 2 ≤ l.length) : joinWith ',' l ≠ joinWith ':' l := by
  obtain ⟨x, y, rest, rfl⟩ : ∃ x y rest, l = x :: y :: rest := by
    match l, h with
    | x :: y :: rest, _ => exact ⟨x, y, rest, rfl⟩
  intro heq
  have htail := List.append_cancel_left heq
  exact absurd (List.cons.inj htail).1 (by decide)

theorem joinWith_eq_of_short {l : List JsString} (h : ¬2 ≤ l.length) : joinWith ',' l = joinWith ':' l := by
  match l, h with
  | [], _ => rfl
  | [x], _ => rfl
  | _ :: _ :: _, h => exact absurd (by simp) h

/-- The first heartbeat reads the text of `init`. -/
theorem initText_iff (urls urls' : UrlList) :
    (((match urls with | some l => some (joinWith ',' l) | none => some []) : Option JsString) ≠ beatText urls' ↔
      urls' ≠ urls) ↔ ¬InitMisread urls urls' := by
  cases urls with
  | none =>
      simp only [InitMisread, not_or]
      by_cases hnone : urls' = none
      · subst hnone
        simp [beatText]
      · simp [hnone, eq_comm]
  | some l =>
      simp only [InitMisread, not_or, not_and]
      by_cases hsame : urls' = some l
      · subst hsame
        have htext : (some (joinWith ',' l) ≠ beatText (some l)) ↔ 2 ≤ l.length := by
          constructor
          · intro hne
            by_contra hshort
            exact hne (congrArg some (joinWith_eq_of_short hshort))
          · intro htwo heq
            exact joinWith_ne_of_two htwo (Option.some.inj heq)
        rw [htext]
        simp
      · simp [hsame, eq_comm]

/-- The text of a list that begins with an `ip:port` entry. -/
theorem joinWith_ipPort (ip port : JsString) (l : List JsString) : joinWith ':' ((ip ++ ':' :: port) :: l) =
    ip ++ ':' :: (if l = [] then port else port ++ ':' :: joinWith ':' l) := by
  by_cases hl : l = []
  · rw [hl, if_pos rfl]
    rfl
  · rw [joinWith_cons hl, if_neg hl, List.append_assoc, List.cons_append]

theorem joinWith_ipPorts_injective {l l' : List JsString} (h : IpPorts (some l)) (h' : IpPorts (some l'))
    (heq : joinWith ':' l = joinWith ':' l') : l = l' := by
  induction l generalizing l' with
  | nil =>
      cases l' with
      | nil => rfl
      | cons y m =>
          obtain ⟨-, ip, port, rfl, -, -⟩ := h' y (by simp)
          rw [joinWith_ipPort] at heq
          exact absurd heq.symm (by simp [joinWith])
  | cons x l ih =>
      obtain ⟨-, ip, port, rfl, hip, hport⟩ := h x (by simp)
      cases l' with
      | nil =>
          rw [joinWith_ipPort] at heq
          exact absurd heq (by simp [joinWith])
      | cons y m =>
          obtain ⟨-, ip', port', rfl, hip', hport'⟩ := h' y (by simp)
          have hl : IpPorts (some l) := fun url hurl => h url (List.mem_cons_of_mem _ hurl)
          have hm : IpPorts (some m) := fun url hurl => h' url (List.mem_cons_of_mem _ hurl)
          rw [joinWith_ipPort, joinWith_ipPort] at heq
          obtain ⟨rfl, hrest⟩ := append_sep_inj hip hip' heq
          -- the port ends at a colon or at the end of the text, on both sides alike
          by_cases hnil : l = []
          · by_cases hnil' : m = []
            · rw [if_pos hnil, if_pos hnil'] at hrest
              rw [hrest, hnil, hnil']
            · rw [if_pos hnil, if_neg hnil'] at hrest
              exact absurd (by rw [hrest]; simp) hport
          · by_cases hnil' : m = []
            · rw [if_neg hnil, if_pos hnil'] at hrest
              exact absurd (by rw [← hrest]; simp) hport'
            · rw [if_neg hnil, if_neg hnil'] at hrest
              obtain ⟨rfl, htail⟩ := append_sep_inj hport hport' hrest
              rw [ih hl hm htail]

/-- Lists of `ip:port` entries are never regrouped. -/
theorem not_regrouped {urls urls' : UrlList} (h : IpPorts urls) (h' : IpPorts urls') : ¬Regrouped urls urls' := by
  rintro ⟨hne, htext⟩
  cases urls with
  | none =>
      cases urls' with
      | none => exact hne rfl
      | some l' => simp [beatText] at htext
  | some l =>
      cases urls' with
      | none => simp [beatText] at htext
      | some l' =>
          apply hne
          rw [joinWith_ipPorts_injective h' h (Option.some.inj htext)]

theorem comma_mem_joinWith {l : List JsString} (h : 2 ≤ l.length) : ',' ∈ joinWith ',' l := by
  match l, h with
  | x :: y :: rest, _ => simp [joinWith]

theorem comma_not_mem_joinWith {l : List JsString} (h : IpPorts (some l)) : ',' ∉ joinWith ':' l := by
  induction l with
  | nil => simp [joinWith]
  | cons x l ih =>
      have hx : ',' ∉ x := (h x (by simp)).1
      have hl : ',' ∉ joinWith ':' l := ih fun url hurl => h url (List.mem_cons_of_mem _ hurl)
      by_cases hnil : l = []
      · rw [hnil]
        exact hx
      · rw [joinWith_cons hnil]
        simp [hx, hl]

/-- With `ip:port` entries the first heartbeat is misread in two cases. -/
theorem initMisread_iff {urls urls' : UrlList} (h : IpPorts urls) (h' : IpPorts urls') :
    InitMisread urls urls' ↔
      (urls = none ∧ urls'.getD [] = []) ∨ (2 ≤ (urls.getD []).length ∧ urls' = urls) := by
  cases urls with
  | none =>
      simp only [InitMisread, Option.getD_none, List.length_nil]
      cases urls' with
      | none => simp [beatText]
      | some l' =>
          have hempty : joinWith ':' l' = [] ↔ l' = [] := by
            constructor
            · intro heq
              have hnil : IpPorts (some []) := by simp [IpPorts]
              have htext : joinWith ':' l' = joinWith ':' [] := heq
              exact joinWith_ipPorts_injective h' hnil htext
            · rintro rfl
              rfl
          simp [beatText, hempty]
  | some l =>
      simp only [InitMisread, Option.getD_some, reduceCtorEq, false_and, false_or]
      constructor
      · rintro (hsame | ⟨hne, htext⟩)
        · exact hsame
        · -- a text with colons only is that of a list of one entry
          cases urls' with
          | none => simp [beatText] at htext
          | some l' =>
              have heq : joinWith ':' l' = joinWith ',' l := Option.some.inj htext
              have hshort : ¬2 ≤ l.length := by
                intro htwo
                apply comma_not_mem_joinWith h'
                rw [heq]
                exact comma_mem_joinWith htwo
              rw [joinWith_eq_of_short hshort] at heq
              exact absurd (congrArg some (joinWith_ipPorts_injective h' h heq)) hne
      · exact .inl

end Controller

/-- The controller agrees with the master after every response exactly if the texts tell the lists apart. With
`ip:port` entries this depends on the first heartbeat alone: it fails when `init` had a list of two or more
entries and the same list comes again, and when `init` had no list and there is still none, or an empty one. -/
theorem controllerAgrees_iff {N : Type} (toNumber : JsString → N) (c : Controller N) (data : InitData N)
    (beats : List UrlList) :
    (ControllerAgrees toNumber c data beats ↔ ToldApart data.nextSkipUrl beats) ∧
      (IpPorts data.nextSkipUrl → (∀ urls ∈ beats, IpPorts urls) →
        (ControllerAgrees toNumber c data beats ↔ ∀ first ∈ beats.head?,
          ¬(data.nextSkipUrl = none ∧ first.getD [] = []) ∧
          ¬(2 ≤ (data.nextSkipUrl.getD []).length ∧ first = data.nextSkipUrl))) := by
  have hagree : ControllerAgrees toNumber c data beats ↔ ToldApart data.nextSkipUrl beats := by
    rw [ControllerAgrees, Controller.init, if_neg (by simp [initResponse])]
    simp only [initResponse, true_and]
    cases beats with
    | nil => simp [HeartbeatsAgree, ToldApart]
    | cons first rest =>
        rw [heartbeatsAgree_cons rfl, ToldApart, heartbeatsAgree_iff, initText_iff]
  refine ⟨hagree, ?_⟩
  intro hinit hbeats
  rw [hagree]
  cases beats with
  | nil => simp [ToldApart]
  | cons first rest =>
      have hchain : List.IsChain (fun u u' => ¬Regrouped u u') (first :: rest) := by
        apply List.Pairwise.isChain
        apply List.pairwise_of_forall_mem_list
        intro u hu u' hu'
        exact not_regrouped (hbeats u hu) (hbeats u' hu')
      rw [ToldApart, initMisread_iff hinit (hbeats first List.mem_cons_self)]
      simp only [hchain, and_true, not_or, List.head?_cons, Option.mem_some_iff, forall_eq']

/-- A response of `init` with a list. -/
def initDataOf (urls : UrlList) : InitData Nat := ⟨[], 0, 0, 0, none, urls⟩

/-- The unary plus on a text of digits. -/
def decimal (text : JsString) : Nat := text.foldl (fun n digit => 10 * n + (digit.toNat - 48)) 0

/-- One server that stays, then none. -/
theorem controller_keeps_one_server :
    ControllerAgrees decimal ⟨[], 0, 0, 0, 0, [], none⟩ (initDataOf (some ["10.0.0.1:80".toList]))
      [some ["10.0.0.1:80".toList], none] := by
  have hentry : IpPorts (some ["10.0.0.1:80".toList]) := by
    intro url hurl
    obtain rfl := List.mem_singleton.mp hurl
    exact ⟨by decide, "10.0.0.1".toList, "80".toList, rfl, by decide, by decide⟩
  apply ((controllerAgrees_iff decimal _ _ _).2 hentry _).mpr
  · intro first hfirst
    obtain rfl := Option.mem_some_iff.mp hfirst
    exact ⟨by decide, by decide⟩
  · intro urls hurls
    rcases List.mem_cons.mp hurls with rfl | hurls
    · exact hentry
    · obtain rfl := List.mem_singleton.mp hurls
      simp [IpPorts]

/-- Two servers that stay. -/
def twoServers : UrlList := some ["10.0.0.1:80".toList, "10.0.0.2:80".toList]

/-- The first heartbeat reloads although the list of two servers is the one of `init`. -/
theorem controller_reloads_same_list :
    ¬∀ (c : Controller Nat) (data : InitData Nat) (beats : List UrlList),
      ControllerAgrees decimal c data beats := by
  intro h
  obtain ⟨-, -, beat, hbeat, hsighup, -⟩ := h ⟨[], 0, 0, 0, 0, [], none⟩ (initDataOf twoServers) [twoServers]
  have hrun : (Controller.heartbeat decimal (Controller.init decimal ⟨[], 0, 0, 0, 0, [], none⟩
      (initResponse (initDataOf twoServers))).1 (heartbeatResponse twoServers)).map (·.sighup) = some true := by
    decide
  rw [hbeat] at hrun
  exact hsighup.mp (Option.some.inj hrun) rfl

end NginxDtls

import NginxDtls.UpdateConfig

/-! What the Node process makes of its environment (`initEnv` of `app.ts`). The role of the node decides the flag `ssl` in
the text of `Listen`, through global replacements that need a space behind a word, and mostly one before it. -/

namespace NginxDtls.InitEnv

open Text UpdateConfig

/-! ### Strings -/

/-- A global replacement of a text, with how much of a match is still to be skipped. -/
def replaceFrom (pattern replacement : JsString) : ℕ → JsString → JsString
  | _, [] => []
  | n + 1, _ :: s => replaceFrom pattern replacement n s
  | 0, c :: s =>
    if pattern <+: c :: s then replacement ++ replaceFrom pattern replacement (pattern.length - 1) s
    else c :: replaceFrom pattern replacement 0 s

/-- `replace` with a pattern that has the flag `g`. -/
def replaceAll (pattern replacement s : JsString) : JsString := replaceFrom pattern replacement 0 s

/-- `toLowerCase() == "true"`; the letters of it are lower case of no others. -/
def isTrue (s : JsString) : Bool := s.map Char.toLower = ['t', 'r', 'u', 'e']

/-- `formatAddrEnv` of `util.ts`, of a text that is not empty. -/
def formatAddrEnv (addrStr : JsString) : List JsString :=
  (replaceAll ['\t'] [] (replaceAll [' '] [] (replaceAll [','] [';'] addrStr))).splitOn ';'

/-! ### The function -/

/-- The variables of the environment; one that is empty counts as none. -/
structure Env where
  masterUrl : Option JsString
  localIdcx : Option JsString
  enableRegister : Option JsString
  nginxListen : Option JsString
  nginxUpstream : Option JsString
  externalAddr : Option JsString
  innerAddr : Option JsString
  nodeType : Option JsString
  probeUdp : Option JsString

/-- The configuration that the function writes. -/
structure Config (N : Type) where
  masterUrl : JsString
  masterEnable : Bool
  nodeType : JsString
  externalAddr : List JsString
  innerAddr : List JsString
  idcCode : JsString
  nginx : NginxConfig N

def decrypt : JsString := "NGINX_DTLS_DECRYPT".toList

def encrypt : JsString := "NGINX_DTLS_ENCRYPT".toList

/-- A variable that is there and not empty. -/
def given (x : Option JsString) : Option JsString := x.filter (· ≠ [])

/-- The last replacement of each role. -/
def removeSsl (listen : JsString) : JsString := replaceAll " ssl ".toList " ".toList listen

def addSsl (listen : JsString) : JsString := replaceAll "udp ".toList "udp ssl ".toList listen

section Function

variable {N : Type} (toNumber : JsString → N)

/-- The upstream of a variable: its parts with an address and a port. -/
def upstreamOf (value : JsString) : UpStream N := ⟨"slave".toList, some ((value.splitOn ';').filterMap (parseUrl toNumber))⟩

/-- The role of the node and its effect. -/
def roleServer (nodeType : JsString) (server : Server) : Server :=
  if nodeType = decrypt then { server with proxySSL := false, listen := addSsl (removeSsl server.listen) }
  else if nodeType = encrypt then { server with proxySSL := true, listen := removeSsl server.listen }
  else server

/-- `initEnv` -/
def initEnv (env : Env) (config : Config N) : Config N :=
  let nodeType := (given env.nodeType).getD config.nodeType
  let server := { config.nginx.server with listen := (given env.nginxListen).getD config.nginx.server.listen }
  let server := roleServer nodeType server
  { masterUrl := (given env.masterUrl).getD config.masterUrl
    masterEnable := ((given env.enableRegister).map isTrue).getD config.masterEnable
    nodeType
    externalAddr := ((given env.externalAddr).map formatAddrEnv).getD config.externalAddr
    innerAddr := ((given env.innerAddr).map formatAddrEnv).getD config.innerAddr
    idcCode := (given env.localIdcx).getD config.idcCode
    nginx :=
      { server := { server with probeUdp := ((given env.probeUdp).map isTrue).getD server.probeUdp }
        upStream := ((given env.nginxUpstream).map fun value => some [some (upstreamOf toNumber value)]).getD
          config.nginx.upStream } }

end Function

/-! ### Global replacements -/

section Replace

variable {pattern replacement s : JsString}

theorem replaceFrom_skip (t : JsString) : replaceFrom pattern replacement t.length (t ++ s) =
    replaceFrom pattern replacement 0 s := by
  induction t with
  | nil => rfl
  | cons c t ih =>
      rw [List.length_cons, List.cons_append, replaceFrom]
      exact ih

/-- A match is replaced. -/
theorem replaceAll_match (hpattern : pattern ≠ []) :
    replaceAll pattern replacement (pattern ++ s) = replacement ++ replaceAll pattern replacement s := by
  cases pattern with
  | nil => exact absurd rfl hpattern
  | cons c pattern =>
      have hpre : c :: pattern <+: c :: (pattern ++ s) := List.prefix_append (c :: pattern) s
      rw [replaceAll, List.cons_append, replaceFrom, if_pos hpre]
      exact congrArg (replacement ++ ·) (replaceFrom_skip pattern)

/-- Without a match a character stays. -/
theorem replaceAll_cons {c : Char} (h : ¬pattern <+: c :: s) :
    replaceAll pattern replacement (c :: s) = c :: replaceAll pattern replacement s := by
  rw [replaceAll, replaceFrom, if_neg h]
  rfl

end Replace

/-! ### Tokens -/

def ssl : JsString := "ssl".toList

def udp : JsString := "udp".toList

/-- Tokens, which are not empty and have no space. -/
def Tokens (ts : List JsString) : Prop := ∀ t ∈ ts, t ≠ [] ∧ ' ' ∉ t

/-- Tokens behind another one. -/
def behind (ts : List JsString) : JsString := ts.flatMap (' ' :: ·)

theorem behind_cons (t : JsString) (ts : List JsString) : behind (t :: ts) = ' ' :: (t ++ behind ts) := rfl

theorem joinWith_behind (t : JsString) (ts : List JsString) : joinWith ' ' (t :: ts) = t ++ behind ts := by
  induction ts generalizing t with
  | nil => exact (List.append_nil t).symm
  | cons t' ts ih => rw [joinWith, ih, behind_cons]

/-- The text of a token between spaces. -/
theorem prefix_token {t t' s : JsString} (ht : ' ' ∉ t) (ht' : ' ' ∉ t') : t ++ [' '] <+: t' ++ ' ' :: s ↔ t = t' := by
  constructor
  · rintro ⟨r, hr⟩
    rw [List.append_assoc] at hr
    exact (append_sep_inj ht ht' hr).1
  · rintro rfl
    exact ⟨s, by rw [List.append_assoc]; rfl⟩

/-! ### The first replacement -/

/-- The tokens that it leaves behind the first one. A token that goes takes the space before the next one. -/
def withoutSsl : List JsString → List JsString
  | [] => []
  | [t] => [t]
  | t :: t' :: ts => if t = ssl then t' :: withoutSsl ts else t :: withoutSsl (t' :: ts)

theorem removeSsl_token {t : JsString} (ht : ' ' ∉ t) (s : JsString) : removeSsl (t ++ s) = t ++ removeSsl s := by
  induction t with
  | nil => rfl
  | cons c t ih =>
      rw [List.mem_cons, not_or] at ht
      have hno : ¬" ssl ".toList <+: c :: (t ++ s) := fun h => ht.1 (List.cons_prefix_cons.mp h).1
      rw [List.cons_append, removeSsl, replaceAll_cons hno, ← removeSsl, ih ht.2]
      rfl

theorem removeSsl_behind {ts : List JsString} (hts : Tokens ts) : removeSsl (behind ts) = behind (withoutSsl ts) := by
  induction ts using withoutSsl.induct with
  | case1 => rfl
  | case2 t =>
      -- there is no space behind the last token
      have ht := (hts t List.mem_cons_self).2
      have hnil : t ++ behind [] = t := List.append_nil t
      have hno : ¬" ssl ".toList <+: ' ' :: t := fun h => ht ((List.cons_prefix_cons.mp h).2.subset (by decide))
      have htoken := removeSsl_token ht []
      rw [List.append_nil] at htoken
      rw [behind_cons, hnil, removeSsl, replaceAll_cons hno, ← removeSsl, htoken, withoutSsl, behind_cons, hnil]
      exact congrArg (' ' :: ·) (List.append_nil t)
  | case3 t' ts ih =>
      have ht' := (hts t' (List.mem_cons_of_mem _ List.mem_cons_self)).2
      have hmatch : behind (ssl :: t' :: ts) = " ssl ".toList ++ (t' ++ behind ts) := rfl
      rw [withoutSsl, if_pos rfl, hmatch, removeSsl, replaceAll_match (by decide), ← removeSsl, removeSsl_token ht',
        ih fun x hx => hts x (List.mem_cons_of_mem _ (List.mem_cons_of_mem _ hx))]
      rfl
  | case4 t t' ts hne ih =>
      have ht := (hts t List.mem_cons_self).2
      have hno : ¬" ssl ".toList <+: ' ' :: (t ++ behind (t' :: ts)) := by
        intro h
        have hpre : ssl ++ [' '] <+: t ++ ' ' :: (t' ++ behind ts) := (List.cons_prefix_cons.mp h).2
        exact hne ((prefix_token (by decide) ht).mp hpre).symm
      rw [withoutSsl, if_neg hne, behind_cons, removeSsl, replaceAll_cons hno, ← removeSsl, removeSsl_token ht,
        ih fun x hx => hts x (List.mem_cons_of_mem _ hx)]
      rfl

/-! ### The second replacement -/

/-- The tokens that it makes: `ssl` comes behind every token that ends in `udp` and is not the last one. -/
def withSsl : List JsString → List JsString
  | [] => []
  | [t] => [t]
  | t :: t' :: ts => if udp <:+ t then t :: ssl :: withSsl (t' :: ts) else t :: withSsl (t' :: ts)

theorem addSsl_token {t : JsString} (ht : ' ' ∉ t) (s : JsString) :
    addSsl (t ++ ' ' :: s) = t ++ ' ' :: ((if udp <:+ t then "ssl ".toList else []) ++ addSsl s) := by
  induction t with
  | nil =>
      have hno : ¬"udp ".toList <+: ' ' :: s := fun h => absurd (List.cons_prefix_cons.mp h).1 (by decide)
      rw [List.nil_append, addSsl, replaceAll_cons hno, if_neg (by decide)]
      rfl
  | cons c t ih =>
      have ht' := ht
      rw [List.mem_cons, not_or] at ht'
      by_cases heq : udp = c :: t
      · have hmatch : (c :: t) ++ ' ' :: s = "udp ".toList ++ s := by rw [← heq]; rfl
        rw [hmatch, addSsl, replaceAll_match (by decide), ← addSsl, if_pos (heq ▸ List.suffix_refl _), ← heq]
        rfl
      · have hno : ¬"udp ".toList <+: c :: (t ++ ' ' :: s) := fun h =>
          heq ((prefix_token (t := udp) (by decide) ht).mp h)
        have hsuffix : (udp <:+ c :: t) ↔ udp <:+ t := by
          rw [List.suffix_cons_iff]
          exact or_iff_right heq
        rw [List.cons_append, addSsl, replaceAll_cons hno, ← addSsl, ih ht'.2]
        simp only [hsuffix]
        rfl

theorem addSsl_last {t : JsString} (ht : ' ' ∉ t) : addSsl t = t := by
  induction t with
  | nil => rfl
  | cons c t ih =>
      have hno : ¬"udp ".toList <+: c :: t := fun h => ht (h.subset (by decide))
      rw [addSsl, replaceAll_cons hno, ← addSsl, ih fun h => ht (List.mem_cons_of_mem _ h)]

theorem withSsl_ne_nil (t : JsString) (ts : List JsString) : withSsl (t :: ts) ≠ [] := by
  cases ts with
  | nil => exact List.cons_ne_nil _ _
  | cons t' ts =>
      rw [withSsl]
      split
      · exact List.cons_ne_nil _ _
      · exact List.cons_ne_nil _ _

theorem addSsl_tokens {t : JsString} {ts : List JsString} (hts : Tokens (t :: ts)) :
    addSsl (joinWith ' ' (t :: ts)) = joinWith ' ' (withSsl (t :: ts)) := by
  induction ts generalizing t with
  | nil => exact addSsl_last (hts t List.mem_cons_self).2
  | cons t' ts ih =>
      have ht := (hts t List.mem_cons_self).2
      rw [joinWith, addSsl_token ht, ih fun x hx => hts x (List.mem_cons_of_mem _ hx), withSsl]
      split
      · rw [joinWith_cons (List.cons_ne_nil _ _), joinWith_cons (withSsl_ne_nil t' ts)]
        rfl
      · rw [joinWith_cons (withSsl_ne_nil t' ts)]
        rfl

/-! ### What is left -/

/-- How many `ssl` stay behind the first token: one at the end, and one that comes right behind one that goes. -/
def sslBehind : List JsString → ℕ
  | [] => 0
  | [t] => if t = ssl then 1 else 0
  | t :: t' :: ts => if t = ssl then (if t' = ssl then 1 else 0) + sslBehind ts else sslBehind (t' :: ts)

/-- How many `ssl` stay: one at the front too. -/
def sslLeft : List JsString → ℕ
  | [] => 0
  | t :: ts => (if t = ssl then 1 else 0) + sslBehind ts

/-- How many tokens before the last one end in `udp`. -/
def udpBefore (ts : List JsString) : ℕ := ts.dropLast.countP fun t => udp <:+ t

/-- No `ssl` at the front, at the end, or beside another one. -/
def SslApart (ts : List JsString) : Prop :=
  ts.head? ≠ some ssl ∧ ts.getLast? ≠ some ssl ∧ ts.IsChain fun t t' => ¬(t = ssl ∧ t' = ssl)

/-- The tokens that are not `ssl`. -/
def others (ts : List JsString) : List JsString := ts.filter (· ≠ ssl)

/-- The text has so many tokens `ssl`, and otherwise the same tokens in the same order. -/
def HasSsl (n : ℕ) (listen : JsString) (ts : List JsString) : Prop :=
  (listen.splitOn ' ').count ssl = n ∧ others (listen.splitOn ' ') = others ts

theorem count_cons_ssl (t : JsString) (ts : List JsString) :
    (t :: ts).count ssl = (if t = ssl then 1 else 0) + ts.count ssl := by
  rw [List.count_cons, Nat.add_comm]
  simp only [beq_iff_eq]

theorem withoutSsl_count (ts : List JsString) : (withoutSsl ts).count ssl = sslBehind ts := by
  induction ts using withoutSsl.induct with
  | case1 => rfl
  | case2 t => exact count_cons_ssl t []
  | case3 t' ts ih => rw [withoutSsl, if_pos rfl, sslBehind, if_pos rfl, count_cons_ssl, ih]
  | case4 t t' ts hne ih => rw [withoutSsl, if_neg hne, sslBehind, if_neg hne, count_cons_ssl, if_neg hne, Nat.zero_add, ih]

theorem others_cons (t : JsString) (ts : List JsString) :
    others (t :: ts) = if t = ssl then others ts else t :: others ts := by
  by_cases h : t = ssl
  · rw [if_pos h]
    exact List.filter_cons_of_neg fun hne => of_decide_eq_true hne h
  · rw [if_neg h]
    exact List.filter_cons_of_pos (decide_eq_true h)

theorem withoutSsl_others (ts : List JsString) : others (withoutSsl ts) = others ts := by
  induction ts using withoutSsl.induct with
  | case1 => rfl
  | case2 t => rfl
  | case3 t' ts ih => rw [withoutSsl, if_pos rfl, others_cons ssl, if_pos rfl, others_cons, ih, others_cons]
  | case4 t t' ts hne ih => rw [withoutSsl, if_neg hne, others_cons, ih, others_cons t]

theorem withSsl_count (ts : List JsString) : (withSsl ts).count ssl = ts.count ssl + udpBefore ts := by
  induction ts using withSsl.induct with
  | case1 => rfl
  | case2 t => rfl
  | case3 t t' ts hsuffix ih =>
      have hudp : udpBefore (t :: t' :: ts) = udpBefore (t' :: ts) + 1 :=
        List.countP_cons_of_pos (decide_eq_true hsuffix)
      rw [withSsl, if_pos hsuffix, count_cons_ssl, count_cons_ssl, if_pos rfl, ih, count_cons_ssl t, hudp]
      omega
  | case4 t t' ts hsuffix ih =>
      have hudp : udpBefore (t :: t' :: ts) = udpBefore (t' :: ts) :=
        List.countP_cons_of_neg fun h => hsuffix (of_decide_eq_true h)
      rw [withSsl, if_neg hsuffix, count_cons_ssl, ih, count_cons_ssl t, hudp]
      omega

theorem withSsl_others (ts : List JsString) : others (withSsl ts) = others ts := by
  induction ts using withSsl.induct with
  | case1 => rfl
  | case2 t => rfl
  | case3 t t' ts hsuffix ih => rw [withSsl, if_pos hsuffix, others_cons, others_cons ssl, if_pos rfl, ih, others_cons t]
  | case4 t t' ts hsuffix ih => rw [withSsl, if_neg hsuffix, others_cons, ih, others_cons t]

theorem udpBefore_cons (t : JsString) {ts : List JsString} (hne : ts ≠ []) :
    udpBefore (t :: ts) = (if udp <:+ t then 1 else 0) + udpBefore ts := by
  rw [udpBefore, List.dropLast_cons_of_ne_nil hne, List.countP_cons, Nat.add_comm]
  simp only [decide_eq_true_eq]
  rfl

/-- The first replacement leaves the tokens that end in `udp`, and the last token. -/
theorem udpBefore_withoutSsl (t : JsString) (ts : List JsString) : udpBefore (t :: withoutSsl ts) = udpBefore (t :: ts) := by
  induction ts using withoutSsl.induct generalizing t with
  | case1 => rfl
  | case2 t' => rfl
  | case3 t' ts ih =>
      have hssl : (if udp <:+ ssl then 1 else 0) = 0 := rfl
      rw [withoutSsl, if_pos rfl, udpBefore_cons t (List.cons_ne_nil _ _), udpBefore_cons t (List.cons_ne_nil _ _),
        udpBefore_cons ssl (List.cons_ne_nil _ _), hssl, Nat.zero_add, ih]
  | case4 t' t'' ts hne ih =>
      rw [withoutSsl, if_neg hne, udpBefore_cons t (List.cons_ne_nil _ _), udpBefore_cons t (List.cons_ne_nil _ _), ih]

theorem withoutSsl_sublist (ts : List JsString) : (withoutSsl ts).Sublist ts := by
  induction ts using withoutSsl.induct with
  | case1 => exact .refl _
  | case2 t => exact .refl _
  | case3 t' ts ih =>
      rw [withoutSsl, if_pos rfl]
      exact (ih.cons_cons t').cons ssl
  | case4 t t' ts hne ih =>
      rw [withoutSsl, if_neg hne]
      exact ih.cons_cons t

theorem withoutSsl_tokens {ts : List JsString} (hts : Tokens ts) : Tokens (withoutSsl ts) :=
  fun t ht => hts t ((withoutSsl_sublist ts).subset ht)

theorem withSsl_tokens {ts : List JsString} (hts : Tokens ts) : Tokens (withSsl ts) := by
  induction ts using withSsl.induct with
  | case1 => exact hts
  | case2 t => exact hts
  | case3 t t' ts hsuffix ih =>
      rw [withSsl, if_pos hsuffix]
      exact List.forall_mem_cons.mpr ⟨hts t List.mem_cons_self, List.forall_mem_cons.mpr ⟨⟨by decide, by decide⟩,
        ih fun x hx => hts x (List.mem_cons_of_mem _ hx)⟩⟩
  | case4 t t' ts hsuffix ih =>
      rw [withSsl, if_neg hsuffix]
      exact List.forall_mem_cons.mpr ⟨hts t List.mem_cons_self, ih fun x hx => hts x (List.mem_cons_of_mem _ hx)⟩

/-- A token that is not `ssl` says nothing of the next one. -/
theorem sslApart_cons {t : JsString} (ht : t ≠ ssl) (ts : List JsString) : SslApart (t :: ts) ↔
    ts.getLast? ≠ some ssl ∧ ts.IsChain fun t t' => ¬(t = ssl ∧ t' = ssl) := by
  have hhead : (t :: ts).head? ≠ some ssl := fun h => ht (Option.some.inj h)
  rw [SslApart, and_iff_right hhead]
  cases ts with
  | nil => exact iff_of_true ⟨hhead, .singleton t⟩ ⟨by decide, .nil⟩
  | cons t' ts =>
      rw [List.getLast?_cons_cons, List.isChain_cons_cons]
      exact and_congr_right fun _ => and_iff_right fun h => ht h.1

theorem sslBehind_eq_zero_iff (ts : List JsString) : sslBehind ts = 0 ↔
    ts.getLast? ≠ some ssl ∧ ts.IsChain fun t t' => ¬(t = ssl ∧ t' = ssl) := by
  induction ts using withoutSsl.induct with
  | case1 => exact iff_of_true rfl ⟨by decide, .nil⟩
  | case2 t =>
      have hlast : [t].getLast? ≠ some ssl ↔ t ≠ ssl := by rw [List.getLast?_singleton, Ne, Option.some_inj]
      rw [sslBehind, hlast, and_iff_left (List.isChain_singleton t)]
      by_cases h : t = ssl
      · exact iff_of_false (by rw [if_pos h]; exact one_ne_zero) (not_not.mpr h)
      · exact iff_of_true (if_neg h) h
  | case3 t' ts ih =>
      rw [sslBehind, if_pos rfl, Nat.add_eq_zero_iff, ih, List.getLast?_cons_cons, List.isChain_cons_cons]
      by_cases h : t' = ssl
      · exact iff_of_false (fun hzero => absurd hzero.1 (by rw [if_pos h]; exact one_ne_zero)) fun hapart =>
          hapart.2.1 ⟨rfl, h⟩
      · have hapart := sslApart_cons h ts
        have hhead : (t' :: ts).head? ≠ some ssl := fun heq => h (Option.some.inj heq)
        rw [SslApart, and_iff_right hhead] at hapart
        have hboth : ¬(ssl = ssl ∧ t' = ssl) := fun hboth => h hboth.2
        rw [if_neg h, and_iff_right rfl, ← hapart, and_iff_right hboth]
  | case4 t t' ts hne ih =>
      rw [sslBehind, if_neg hne, ih, List.getLast?_cons_cons, List.isChain_cons_cons]
      exact and_congr_right fun _ => (and_iff_right fun h => hne h.1).symm

/-- No `ssl` stays where all stand apart. -/
theorem sslLeft_eq_zero_iff (ts : List JsString) : sslLeft ts = 0 ↔ SslApart ts := by
  cases ts with
  | nil => exact iff_of_true rfl ⟨by decide, by decide, .nil⟩
  | cons t ts =>
      rw [sslLeft, Nat.add_eq_zero_iff]
      by_cases h : t = ssl
      · exact iff_of_false (fun hzero => absurd hzero.1 (by rw [if_pos h]; exact one_ne_zero)) fun hapart =>
          hapart.1 (congrArg some h)
      · rw [if_neg h, and_iff_right rfl, sslApart_cons h, sslBehind_eq_zero_iff]

theorem splitOn_joinWith {ts : List JsString} (hne : ts ≠ []) (hts : Tokens ts) : (joinWith ' ' ts).splitOn ' ' = ts := by
  induction ts with
  | nil => exact absurd rfl hne
  | cons t ts ih =>
      have ht := (hts t List.mem_cons_self).2
      cases ts with
      | nil => exact List.splitOn_eq_singleton ht
      | cons t' ts =>
          rw [joinWith, List.splitOn_append_cons_self_of_not_mem ht, ih (List.cons_ne_nil _ _) fun x hx =>
            hts x (List.mem_cons_of_mem _ hx)]

/-! ### The role -/

section Role

variable {ts : List JsString}

theorem withoutSsl_removeSsl {t : JsString} (hts : Tokens (t :: ts)) :
    removeSsl (joinWith ' ' (t :: ts)) = joinWith ' ' (t :: withoutSsl ts) := by
  rw [joinWith_behind, removeSsl_token (hts t List.mem_cons_self).2, removeSsl_behind fun x hx =>
    hts x (List.mem_cons_of_mem _ hx), joinWith_behind]

theorem removeSsl_hasSsl (hne : ts ≠ []) (hts : Tokens ts) (n : ℕ) :
    HasSsl n (removeSsl (joinWith ' ' ts)) ts ↔ sslLeft ts = n := by
  cases ts with
  | nil => exact absurd rfl hne
  | cons t ts =>
      have hrest : Tokens (t :: withoutSsl ts) := List.forall_mem_cons.mpr ⟨hts t List.mem_cons_self,
        withoutSsl_tokens fun x hx => hts x (List.mem_cons_of_mem _ hx)⟩
      rw [HasSsl, withoutSsl_removeSsl hts, splitOn_joinWith (List.cons_ne_nil _ _) hrest, count_cons_ssl, withoutSsl_count,
        others_cons, withoutSsl_others, ← others_cons, and_iff_left rfl, sslLeft]

theorem addSsl_hasSsl (hne : ts ≠ []) (hts : Tokens ts) (n : ℕ) :
    HasSsl n (addSsl (removeSsl (joinWith ' ' ts))) ts ↔ sslLeft ts + udpBefore ts = n := by
  cases ts with
  | nil => exact absurd rfl hne
  | cons t ts =>
      have hrest : Tokens (t :: withoutSsl ts) := List.forall_mem_cons.mpr ⟨hts t List.mem_cons_self,
        withoutSsl_tokens fun x hx => hts x (List.mem_cons_of_mem _ hx)⟩
      rw [HasSsl, withoutSsl_removeSsl hts, addSsl_tokens hrest, splitOn_joinWith (withSsl_ne_nil t _)
        (withSsl_tokens hrest), withSsl_count, count_cons_ssl, withoutSsl_count, udpBefore_withoutSsl,
        withSsl_others, others_cons, withoutSsl_others, ← others_cons, and_iff_left rfl, sslLeft]

variable {N : Type} (toNumber : JsString → N) (env : Env) (config : Config N)

/-- The text of `Listen` that the role finds. -/
def listenOf {N : Type} (env : Env) (config : Config N) : JsString :=
  (given env.nginxListen).getD config.nginx.server.listen

/-- The role of a node. -/
def nodeTypeOf {N : Type} (env : Env) (config : Config N) : JsString := (given env.nodeType).getD config.nodeType

theorem initEnv_decrypt (h : nodeTypeOf env config = decrypt) :
    (initEnv toNumber env config).nginx.server.listen = addSsl (removeSsl (listenOf env config)) := by
  show (roleServer (nodeTypeOf env config) _).listen = _
  rw [h]
  rfl

theorem initEnv_encrypt (h : nodeTypeOf env config = encrypt) :
    (initEnv toNumber env config).nginx.server.listen = removeSsl (listenOf env config) := by
  show (roleServer (nodeTypeOf env config) _).listen = _
  rw [h]
  rfl

/-- Which texts of `Listen` get the flag of the role. -/
theorem initEnv_ssl_iff (hts : Tokens ts) (hudp : ts.count udp = 1) (hlisten : listenOf env config = joinWith ' ' ts) :
    (nodeTypeOf env config = decrypt →
        (HasSsl 1 (initEnv toNumber env config).nginx.server.listen ts ↔ sslLeft ts + udpBefore ts = 1)) ∧
      (nodeTypeOf env config = encrypt →
        (HasSsl 0 (initEnv toNumber env config).nginx.server.listen ts ↔ SslApart ts)) := by
  have hne : ts ≠ [] := by
    rintro rfl
    exact absurd hudp (by decide)
  refine ⟨fun hrole => ?_, fun hrole => ?_⟩
  · rw [initEnv_decrypt toNumber env config hrole, hlisten, addSsl_hasSsl hne hts]
  · rw [initEnv_encrypt toNumber env config hrole, hlisten, removeSsl_hasSsl hne hts, sslLeft_eq_zero_iff]

/-- An environment with a role and a text of `Listen` only. -/
def roleEnv (nodeType listen : JsString) : Env :=
  ⟨none, none, none, some listen, none, none, none, some nodeType, none⟩

/-- A configuration before the function has run. -/
def sampleConfig : Config ℕ :=
  ⟨[], false, encrypt, [], [], [], ⟨⟨"25157 udp reuseport".toList, true, true⟩, none⟩⟩

/-- `25157 udp reuseport` for a node that decrypts. -/
theorem initEnv_ssl_iff_three :
    HasSsl 1 (initEnv (fun _ => 0) (roleEnv decrypt "25157 udp reuseport".toList) sampleConfig).nginx.server.listen
      ["25157".toList, udp, "reuseport".toList] := by
  have htokens : Tokens ["25157".toList, udp, "reuseport".toList] := by
    unfold Tokens
    decide
  exact ((initEnv_ssl_iff (fun _ => 0) (roleEnv decrypt "25157 udp reuseport".toList) sampleConfig htokens (by decide)
    (by decide)).1 (by decide)).mpr (by decide)

/-- With `udp` at the end a node that decrypts listens without `ssl`. -/
theorem initEnv_ssl_missing : Tokens ["25157".toList, "reuseport".toList, udp] ∧
    ["25157".toList, "reuseport".toList, udp].count udp = 1 ∧
      (initEnv (fun _ => 0) (roleEnv decrypt "25157 reuseport udp".toList) sampleConfig).nginx.server.listen =
          "25157 reuseport udp".toList ∧
        ¬HasSsl 1 (initEnv (fun _ => 0) (roleEnv decrypt "25157 reuseport udp".toList) sampleConfig).nginx.server.listen
          ["25157".toList, "reuseport".toList, udp] := by
  have hlisten : (initEnv (fun _ => 0) (roleEnv decrypt "25157 reuseport udp".toList) sampleConfig).nginx.server.listen =
      "25157 reuseport udp".toList := by decide
  refine ⟨by unfold Tokens; decide, by decide, hlisten, fun h => ?_⟩
  rw [hlisten] at h
  exact absurd h.1 (by decide)

end Role

end NginxDtls.InitEnv

-- The domains of all servers: which names a server serves, the certificate of each
-- of them, and where the name points.
import IcsdPanel.Dicts
import IcsdPanel.Orders
import IcsdPanel.Texts
import Mathlib.Data.List.Count

open dicts orders texts

namespace icsd_panel.overview

/-! ## The reports of the agents -/

/-- A certificate in the answer of `ssl.list`. -/
structure Cert where
  name : Str
  source : Str
  domains : List Str
  issuer : Str
  notAfter : Int
  path : Str
deriving DecidableEq

/-- A site, as far as `overview` reads it. -/
structure Site where
  file : Str
  names : List Str
  ssl : Bool
deriving DecidableEq

structure Report where
  certs : List Cert
  sites : List Site
  certbot : Bool

/-! ## The certificate of a domain -/

/-- A name of a certificate stands for the domain. -/
def covers (domain d : Str) : Bool :=
  d = domain ||
    (['*', '.'].isPrefixOf d && (d.drop 1).isSuffixOf domain && domain.count '.' = d.count '.')

/-- `best`, after one more certificate. -/
def better (best : Option Cert) (c : Cert) : Option Cert :=
  match best with
  | none => some c
  | some b => if b.notAfter < c.notAfter then some c else some b

/-- `_cert_for` -/
def certFor (domain : Str) (certs : List Cert) : Option Cert :=
  certs.foldl (fun best c => c.domains.foldl (fun best d => if covers domain d then better best c else best) best) none

/-! ## The overview -/

/-- A server, and the address that the hub knows of it. -/
structure Server where
  id : Str
  name : Str
  ip : Str

/-- `dict.setdefault` -/
def setDefault {κ ν : Type} [DecidableEq κ] (d : Dict κ ν) (k : κ) (v : ν) : Dict κ ν :=
  if (d.get k).isSome then d else d.set k v

/-- A name of a site that is a domain. -/
def wanted (n : Str) : Bool := !('*' ∈ n || '.' ∉ n || ['~'].isPrefixOf n)

def caddy : Str := "caddy".toList

/-- The entry of a name that only Caddy serves. -/
def caddySite : Site := ⟨"Caddy".toList, [], true⟩

/-- `names` of `overview` -/
def namesOf (r : Report) : Dict Str Site :=
  let names := r.sites.foldl (fun d site =>
    site.names.foldl (fun d n => if wanted n then setDefault d n site else d) d) .empty
  r.certs.foldl (fun d c =>
    if c.source = caddy then c.domains.foldl (fun d n => if '*' ∈ n then d else setDefault d n caddySite) d
    else d) names

inductive DnsState
  | none | ok | elsewhere
deriving DecidableEq

structure Row where
  domain : Str
  serverId : Str
  server : Str
  serverIp : Str
  site : Str
  ssl : Bool
  cert : Option Cert
  certbot : Bool
  dns : DnsState
deriving DecidableEq

/-- Where a name points, by its addresses. -/
def dnsState (ip : Str) (ips : List Str) : DnsState :=
  if ips = [] then .none else if ip ≠ [] ∧ ips.contains ip then .ok else .elsewhere

/-- The row of a name of a server. The addresses of the names are `ips`. -/
def rowOf (ips : Str → List Str) (srv : Server) (r : Report) (name : Str) (site : Site) : Row :=
  let cert := certFor name r.certs
  ⟨name, srv.id, srv.name, srv.ip, site.file, site.ssl || cert.isSome, cert, r.certbot, dnsState srv.ip (ips name)⟩

/-- Python's `<=` on `str`: the first code points that differ decide. -/
def strLe (s t : Str) : Bool := lexLe Char.toNat s t

def serverRows (ips : Str → List Str) (srv : Server) (r : Report) : List Row :=
  ((namesOf r).entries.mergeSort fun a b => strLe a.1 b.1).map fun e => rowOf ips srv r e.1 e.2

/-- The rows of `overview`, from what `fetch` gave for each server. -/
def rows (ips : Str → List Str) (results : List (Server × Option Report)) : List Row :=
  results.flatMap fun x => match x.2 with
    | none => []
    | some r => serverRows ips x.1 r

/-! ## What a certificate covers -/

/-- The domain itself, or a wildcard in the place of its first label. -/
def Covers (domain d : Str) : Prop :=
  d = domain ∨ ∃ label rest, '.' ∉ label ∧ domain = label ++ '.' :: rest ∧ d = '*' :: '.' :: rest

def Cert.Serves (domain : Str) (c : Cert) : Prop := ∃ d ∈ c.domains, Covers domain d

variable {domain d name : Str} {c : Cert} {certs : List Cert} {best : Option Cert} {site : Site} {r : Report}

theorem covers_iff : covers domain d = true ↔ Covers domain d := by
  unfold covers Covers
  rw [Bool.or_eq_true, decide_eq_true_eq]
  refine or_congr_right ?_
  rw [Bool.and_eq_true, Bool.and_eq_true, decide_eq_true_eq, List.isPrefixOf_iff_prefix, List.isSuffixOf_iff_suffix]
  constructor
  · rintro ⟨⟨⟨rest, rfl⟩, ⟨label, hlabel⟩⟩, hcount⟩
    have hdomain : domain = label ++ '.' :: rest := by simpa using hlabel.symm
    refine ⟨label, rest, ?_, hdomain, rfl⟩
    rw [hdomain] at hcount
    have hzero : label.count '.' = 0 := by
      simp [List.count_append] at hcount
      omega
    exact List.count_eq_zero.mp hzero
  · rintro ⟨label, rest, hlabel, rfl, rfl⟩
    have hzero := List.count_eq_zero.mpr hlabel
    refine ⟨⟨⟨rest, rfl⟩, ⟨label, rfl⟩⟩, ?_⟩
    simp [List.count_append, hzero]

instance : Decidable (Covers domain d) := decidable_of_iff _ covers_iff

instance : Decidable (c.Serves domain) := inferInstanceAs (Decidable (∃ d ∈ c.domains, Covers domain d))

/-! ## The best certificate -/

theorem better_again : better (better best c) c = better best c := by
  cases best with
  | none => simp [better]
  | some b =>
    by_cases h : b.notAfter < c.notAfter
    · simp [better, h]
    · simp [better, h]

/-- The names of one certificate make it the best at most once. -/
theorem names_fold (ds : List Str) :
    ds.foldl (fun best d => if covers domain d then better best c else best) best =
      if ∃ d ∈ ds, Covers domain d then better best c else best := by
  induction ds generalizing best with
  | nil => simp
  | cons d ds ih =>
    rw [List.foldl_cons, ih]
    by_cases hd : covers domain d = true
    · have hex : ∃ x ∈ d :: ds, Covers domain x := ⟨d, List.mem_cons_self, covers_iff.mp hd⟩
      rw [if_pos hd, if_pos hex, better_again, ite_self]
    · have hex : (∃ x ∈ d :: ds, Covers domain x) ↔ ∃ x ∈ ds, Covers domain x := by
        simp [List.mem_cons, ← covers_iff, hd]
      rw [if_neg hd]
      exact if_congr hex.symm rfl rfl

theorem certFor_eq : certFor domain certs = (certs.filter fun c => c.Serves domain).foldl better none := by
  unfold certFor
  simp only [names_fold]
  rw [List.foldl_filter]
  refine congrArg (fun f => certs.foldl f none) (funext₂ fun best c => ?_)
  by_cases h : c.Serves domain
  · rw [if_pos (decide_eq_true h)]
    exact if_pos h
  · rw [if_neg (c := decide (c.Serves domain) = true) (by simpa using fun hd => h hd)]
    exact if_neg h

/-- The first of the certificates that are valid the longest. -/
structure Best (certs : List Cert) (c : Cert) : Prop where
  cut : ∃ before after, certs = before ++ c :: after ∧
    (∀ b ∈ before, b.notAfter < c.notAfter) ∧ ∀ a ∈ after, a.notAfter ≤ c.notAfter

theorem best_snoc {x : Cert} : Best (certs ++ [x]) c ↔
    (Best certs c ∧ x.notAfter ≤ c.notAfter) ∨ ((∀ b ∈ certs, b.notAfter < x.notAfter) ∧ c = x) := by
  constructor
  · rintro ⟨before, after, heq, hbefore, hafter⟩
    rcases List.eq_nil_or_concat after with rfl | ⟨after, y, rfl⟩
    · obtain ⟨rfl, hx⟩ := List.append_inj' heq rfl
      have hx : x = c := by simpa using hx
      subst hx
      exact .inr ⟨hbefore, rfl⟩
    · have hcut : certs ++ [x] = (before ++ c :: after) ++ [y] := by simpa using heq
      obtain ⟨rfl, hx⟩ := List.append_inj' hcut rfl
      have hx : x = y := by simpa using hx
      subst hx
      refine .inl ⟨⟨before, after, rfl, hbefore, fun a ha => hafter a ?_⟩, hafter x ?_⟩
      · simp [ha]
      · simp
  · rintro (⟨⟨before, after, rfl, hbefore, hafter⟩, hx⟩ | ⟨hall, rfl⟩)
    · refine ⟨before, after ++ [x], by simp, hbefore, fun a ha => ?_⟩
      rcases List.mem_append.mp ha with ha | ha
      · exact hafter a ha
      · rw [List.mem_singleton.mp ha]
        exact hx
    · exact ⟨certs, [], rfl, hall, by simp⟩

theorem fold_best (certs : List Cert) :
    (∀ c, certs.foldl better none = some c ↔ Best certs c) ∧ (certs.foldl better none = none ↔ certs = []) := by
  induction certs using List.reverseRecOn with
  | nil =>
    refine ⟨fun c => ⟨nofun, ?_⟩, by simp⟩
    rintro ⟨before, after, heq, -⟩
    simp at heq
  | append_singleton certs x ih =>
    obtain ⟨hsome, hnone⟩ := ih
    rw [List.foldl_append, List.foldl_cons, List.foldl_nil]
    cases hbest : certs.foldl better none with
    | none =>
      obtain rfl := hnone.mp hbest
      refine ⟨fun c => ?_, by simp [better]⟩
      rw [best_snoc]
      constructor
      · rintro heq
        have hx : x = c := by simpa [better] using heq
        exact .inr ⟨by simp, hx.symm⟩
      · rintro (⟨⟨before, after, heq, -⟩, -⟩ | ⟨-, rfl⟩)
        · simp at heq
        · rfl
    | some b =>
      have hb := (hsome b).mp hbest
      -- every certificate before is valid at most as long as the best
      have hle : ∀ y ∈ certs, y.notAfter ≤ b.notAfter := by
        obtain ⟨before, after, rfl, hbefore, hafter⟩ := hb
        intro y hy
        rcases List.mem_append.mp hy with hy | hy
        · exact Int.le_of_lt (hbefore y hy)
        · rcases List.mem_cons.mp hy with rfl | hy
          · exact Int.le_refl _
          · exact hafter y hy
      have hmem : b ∈ certs := by
        obtain ⟨before, after, rfl, -⟩ := hb
        simp
      refine ⟨fun c => ?_, ?_⟩
      · rw [best_snoc, ← hsome, hbest]
        by_cases hlt : b.notAfter < x.notAfter
        · simp only [better, hlt, if_true, Option.some.injEq]
          constructor
          · rintro rfl
            exact .inr ⟨fun y hy => Int.lt_of_le_of_lt (hle y hy) hlt, rfl⟩
          · rintro (⟨rfl, hx⟩ | ⟨-, rfl⟩)
            · omega
            · rfl
        · simp only [better, hlt, if_false, Option.some.injEq]
          constructor
          · rintro rfl
            exact .inl ⟨rfl, Int.not_lt.mp hlt⟩
          · rintro (⟨rfl, -⟩ | ⟨hall, rfl⟩)
            · rfl
            · exact absurd (hall b hmem) hlt
      · simp only [better]
        split <;> simp

/-- The certificate that the panel shows for a domain is the first of those that are
valid the longest among the ones that cover it, and there is none exactly when none
covers it. -/
theorem cert_best (domain : Str) (certs : List Cert) :
    (∀ c, certFor domain certs = some c ↔ Best (certs.filter fun c => c.Serves domain) c) ∧
      (certFor domain certs = none ↔ ∀ c ∈ certs, ∀ d ∈ c.domains, ¬ Covers domain d) := by
  rw [certFor_eq]
  refine ⟨(fold_best _).1, (fold_best _).2.trans ?_⟩
  rw [List.filter_eq_nil_iff]
  simp only [decide_eq_true_eq]
  simp only [Cert.Serves, not_exists, not_and]

/-! ## The names of a server -/

/-- The first site that gives the name, or Caddy where no site does. -/
def SiteOf (r : Report) (name : Str) (site : Site) : Prop :=
  (wanted name = true ∧ ∃ before after, r.sites = before ++ site :: after ∧ name ∈ site.names ∧
      ∀ b ∈ before, name ∉ b.names) ∨
    (site = caddySite ∧ '*' ∉ name ∧ (∃ c ∈ r.certs, c.source = caddy ∧ name ∈ c.domains) ∧
      (wanted name = true → ∀ s ∈ r.sites, name ∉ s.names))

theorem get_setDefault {κ ν : Type} [DecidableEq κ] {d : Dict κ ν} {k q : κ} {v : ν} :
    (setDefault d k v).get q = (d.get q).or (if q = k then some v else none) := by
  unfold setDefault
  split
  next h =>
    by_cases hq : q = k
    · obtain ⟨u, hu⟩ := Option.isSome_iff_exists.mp h
      simp [hq, hu]
    · simp [hq]
  next h =>
    have hnone : d.get k = none := by simpa using h
    by_cases hq : q = k
    · simp [hq, hnone]
    · simp [hq, Dict.get_set_ne hq]

/-- One list of names that all get the same value. -/
theorem get_names {ν : Type} (p : Str → Bool) (v : ν) (ns : List Str) (d : Dict Str ν) (q : Str) :
    (ns.foldl (fun d n => if p n then setDefault d n v else d) d).get q =
      (d.get q).or (if p q = true ∧ q ∈ ns then some v else none) := by
  induction ns generalizing d with
  | nil => simp
  | cons n ns ih =>
    rw [List.foldl_cons, ih]
    by_cases hp : p n = true
    · rw [if_pos hp, get_setDefault, Option.or_assoc]
      congr 1
      by_cases hq : q = n
      · subst hq
        simp [hp]
      · simp [hq]
    · rw [if_neg hp]
      congr 1
      by_cases hq : q = n
      · subst hq
        simp [hp]
      · simp [hq]

/-- Many lists of names: the first with the name decides. -/
theorem get_lists {α ν : Type} (has : α → Str → Prop) [∀ x, DecidablePred (has x)] (f : α → ν)
    (g : Dict Str ν → α → Dict Str ν)
    (hg : ∀ d x q, (g d x).get q = (d.get q).or (if has x q then some (f x) else none)) (xs : List α)
    (d : Dict Str ν) (q : Str) :
    (xs.foldl g d).get q = (d.get q).or ((xs.find? fun x => has x q).map f) := by
  induction xs generalizing d with
  | nil => simp
  | cons x xs ih =>
    rw [List.foldl_cons, ih, hg, Option.or_assoc]
    congr 1
    by_cases hx : has x q
    · simp [hx]
    · simp [hx]

theorem namesOf_get (r : Report) (name : Str) : (namesOf r).get name =
    ((r.sites.find? fun s => wanted name ∧ name ∈ s.names)).or
      ((r.certs.find? fun c => c.source = caddy ∧ '*' ∉ name ∧ name ∈ c.domains).map fun _ => caddySite) := by
  have hcerts := get_lists (fun (c : Cert) (n : Str) => c.source = caddy ∧ '*' ∉ n ∧ n ∈ c.domains)
    (fun _ => caddySite)
    (fun d c => if c.source = caddy then
      c.domains.foldl (fun d n => if '*' ∈ n then d else setDefault d n caddySite) d else d) (by
      intro d c q
      by_cases hc : c.source = caddy
      · have hnames := get_names (fun n : Str => decide ('*' ∉ n)) caddySite c.domains d q
        simpa [hc] using hnames
      · simp [hc])
  have hsites := get_lists (fun (s : Site) (n : Str) => wanted n ∧ n ∈ s.names) id
    (fun d site => site.names.foldl (fun d n => if wanted n then setDefault d n site else d) d) fun d site q => by
      simpa using get_names wanted site site.names d q
  unfold namesOf
  rw [hcerts, hsites]
  simp

/-- The names that the panel shows for a server, each with its site. -/
theorem namesOf_iff : (namesOf r).get name = some site ↔ SiteOf r name site := by
  rw [namesOf_get, Option.or_eq_some_iff]
  refine or_congr ?_ ?_
  · rw [List.find?_eq_some_iff_append]
    simp only [decide_eq_true_eq, Bool.not_eq_true', decide_eq_false_iff_not, not_and]
    constructor
    · rintro ⟨⟨hw, hin⟩, before, after, heq, hbefore⟩
      exact ⟨hw, before, after, heq, hin, fun b hb => hbefore b hb hw⟩
    · rintro ⟨hw, before, after, heq, hin, hbefore⟩
      exact ⟨⟨hw, hin⟩, before, after, heq, fun b hb _ => hbefore b hb⟩
  · rw [List.find?_eq_none, Option.map_eq_some_iff]
    simp only [decide_eq_true_eq, not_and]
    constructor
    · rintro ⟨hnone, c, hc, rfl⟩
      have hmem := List.mem_of_find?_eq_some hc
      have hcaddy := List.find?_some hc
      simp only [decide_eq_true_eq] at hcaddy
      exact ⟨rfl, hcaddy.2.1, ⟨c, hmem, hcaddy.1, hcaddy.2.2⟩, fun hw s hs => hnone s hs hw⟩
    · rintro ⟨rfl, hstar, ⟨c, hc, hsource, hin⟩, hnone⟩
      refine ⟨fun s hs hw => hnone hw s hs, ?_⟩
      have hsome : (r.certs.find? fun c => c.source = caddy ∧ '*' ∉ name ∧ name ∈ c.domains).isSome := by
        rw [List.find?_isSome]
        exact ⟨c, hc, decide_eq_true ⟨hsource, hstar, hin⟩⟩
      obtain ⟨c', hc'⟩ := Option.isSome_iff_exists.mp hsome
      exact ⟨c', hc', rfl⟩

/-! ## The rows -/

variable {ips : Str → List Str} {srv : Server} {row : Row} {results : List (Server × Option Report)}

theorem mem_serverRows : row ∈ serverRows ips srv r ↔ ∃ name site, SiteOf r name site ∧ row = rowOf ips srv r name site := by
  unfold serverRows
  rw [List.mem_map]
  constructor
  · rintro ⟨⟨name, site⟩, he, rfl⟩
    rw [List.mem_mergeSort] at he
    exact ⟨name, site, namesOf_iff.mp (Dict.mem_entries.mp he), rfl⟩
  · rintro ⟨name, site, hsite, rfl⟩
    refine ⟨(name, site), ?_, rfl⟩
    rw [List.mem_mergeSort]
    exact Dict.mem_entries.mpr (namesOf_iff.mpr hsite)

/-- The names of a server are in their order, each once. -/
theorem serverRows_sorted (ips : Str → List Str) (srv : Server) (r : Report) :
    (serverRows ips srv r).Pairwise fun a b => strLe b.domain a.domain = false := by
  unfold serverRows
  rw [List.pairwise_map]
  have hsorted := sorted_lexLe Char.toNat Prod.fst (namesOf r).entries
  have hnodup : (((namesOf r).entries.mergeSort fun a b => strLe a.1 b.1).map Prod.fst).Nodup :=
    ((List.mergeSort_perm _ _).map Prod.fst).nodup_iff.mpr (namesOf r).distinct
  refine hsorted.imp₂ (fun a b hab hne => ?_) (List.pairwise_map.mp hnodup)
  exact Bool.eq_false_iff.mpr fun hba => hne (lexLe_antisymm (fun _ _ => Char.toNat_inj.mp) hab hba)

theorem mem_rows : row ∈ rows ips results ↔ ∃ srv r, (srv, some r) ∈ results ∧ row ∈ serverRows ips srv r := by
  unfold rows
  rw [List.mem_flatMap]
  constructor
  · rintro ⟨⟨srv, o⟩, hx, hrow⟩
    cases o with
    | none => cases hrow
    | some r => exact ⟨srv, r, hx, hrow⟩
  · rintro ⟨srv, r, hx, hrow⟩
    exact ⟨_, hx, hrow⟩

theorem serverId_of_mem (hrow : row ∈ serverRows ips srv r) : row.serverId = srv.id := by
  obtain ⟨name, site, -, rfl⟩ := mem_serverRows.mp hrow
  rfl

/-- The page of the domains has for each server exactly its names, each once and in their
order, with the first site that gives the name and the certificate for it. -/
theorem rows_told (ips : Str → List Str) (results : List (Server × Option Report))
    (hids : (results.map fun x => x.1.id).Nodup) :
    ((rows ips results).map fun row => (row.serverId, row.domain)).Nodup ∧
      (∀ srv r, (serverRows ips srv r).Pairwise fun a b => strLe b.domain a.domain = false) ∧
      ∀ row, row ∈ rows ips results ↔ ∃ srv r, (srv, some r) ∈ results ∧
        ∃ name site, SiteOf r name site ∧ row = rowOf ips srv r name site := by
  refine ⟨?_, serverRows_sorted ips, fun row => ?_⟩
  · unfold rows
    rw [List.map_flatMap, List.nodup_flatMap]
    constructor
    · rintro ⟨srv, o⟩ -
      cases o with
      | none => exact List.nodup_nil
      | some r =>
        rw [List.Nodup, List.pairwise_map]
        refine (serverRows_sorted ips srv r).imp fun {a b} hlt heq => ?_
        have hself : strLe b.domain b.domain = true := lexLe_self _
        rw [(Prod.mk.inj heq).2, hself] at hlt
        cases hlt
    · refine (List.pairwise_map.mp hids).imp ?_
      rintro ⟨srv, o⟩ ⟨srv', o'⟩ hne x hx hx'
      obtain ⟨row, hrow, rfl⟩ := List.mem_map.mp hx
      obtain ⟨row', hrow', heq⟩ := List.mem_map.mp hx'
      cases o with
      | none => cases hrow
      | some r =>
        cases o' with
        | none => cases hrow'
        | some r' =>
          rw [serverId_of_mem hrow, serverId_of_mem hrow'] at heq
          exact hne (Prod.mk.inj heq).1.symm
  · rw [mem_rows]
    simp only [mem_serverRows]

/-- A server with a site, and with a certificate of Caddy for one name more. -/
def panelReport : Report :=
  ⟨[⟨[], caddy, ["*.b.ir".toList, "a.ir".toList], [], 50, []⟩], [⟨"f".toList, ["a.ir".toList, "_".toList], false⟩], false⟩

theorem panel_rows_told :
    ((rows (fun _ => []) [(⟨"s1".toList, [], []⟩, some panelReport)]).map fun row => (row.serverId, row.domain)).Nodup ∧
      (∀ srv r, (serverRows (fun _ => []) srv r).Pairwise fun a b => strLe b.domain a.domain = false) ∧
      ∀ row, row ∈ rows (fun _ => []) [(⟨"s1".toList, [], []⟩, some panelReport)] ↔
        ∃ srv r, (srv, some r) ∈ [((⟨"s1".toList, [], []⟩ : Server), some panelReport)] ∧
          ∃ name site, SiteOf r name site ∧ row = rowOf (fun _ => []) srv r name site :=
  rows_told (fun _ => []) [(⟨"s1".toList, [], []⟩, some panelReport)] (List.nodup_singleton _)

end icsd_panel.overview

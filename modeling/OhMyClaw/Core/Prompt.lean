import OhMyClaw.Core.Skill
import OhMyClaw.Lib.Ties
import Mathlib.Data.String.Basic

/-!
# The system prompt

The prompt is a prefix that a provider may cache and a suffix with the time.  Its lists of tools, skills and
memories come in no fixed order and are sorted before they are written: the tools by name, the memories by key,
the skills by the name they show, which two skills may share.

    reorder_iff         when the order of the inputs leaves no trace
    stable_iff_names    the same for slugs as publishers write them
-/

namespace OhMyClaw

structure MemLine where
  key : String
  text : String
deriving DecidableEq, Repr

structure ToolBrief where
  name : String
  description : String
deriving DecidableEq, Repr

structure PromptInputs where
  soul : String
  platform : String
  model : String
  provider : String
  endpoint : Option String
  bootstrap : List MemLine
  skills : List Skill
  tools : List ToolBrief
  now : String
deriving DecidableEq, Repr

structure RenderedPrompt where
  stablePrefix : String
  volatileSuffix : String
deriving DecidableEq, Repr

namespace Prompt

def trim (s : String) : String := String.ofList (RustStr.trim s.toList)

/-- The line of the model, with the address asked, and that the model is to believe it. -/
def renderModelLine (model provider : String) (endpoint : Option String) : String :=
  let parts := (if provider = "" then [] else ["provider: " ++ provider]) ++
    (((endpoint.map trim).filter (· ≠ "")).map ("端点: " ++ ·)).toList
  let head :=
    if parts = [] then "当前模型：" ++ model
    else "当前模型：" ++ model ++ "（" ++ "，".intercalate parts ++ "）"
  head ++ "\n" ++
    "以上一行由本机运行时按实际生效配置填入，是关于你自身的权威事实。被问到你是" ++
    "什么模型、哪家 provider、打的哪个端点时，只能照这一行回答。你对自身型号或" ++
    "厂商的任何先验印象一律以此为准被覆盖——不要报出这一行里没有出现的名字。"

/-- What the prompt has to say about the tools. -/
def toolGuide : String :=
  "\n优先使用结构化工具完成任务：查看/切换目录用 sys（pwd/cd/now），" ++
  "读写/检索文件用 file（read/write/edit/append/list/stat/head/tail/grep/glob）。" ++
  "仅当这些工具都覆盖不到时才用 exec 执行 shell 命令。" ++
  "命令里的 shell 元字符按字面写，不要用 HTML 实体转义" ++
  "（写 `&&`、`>`、`\"`，不要写 `&amp;&amp;`、`&gt;`、`&quot;`）。\n" ++
  "\n修改已有文件用 file 的 edit（只发要改的那一小段），不要用 write " ++
  "重发整个文件：工具参数是逐字符流式传输的，重发一个几十 KB 的文件要" ++
  "好几分钟，而且长参数容易撞上输出长度上限被截断。" ++
  "edit 的 old_string 必须与文件内容逐字符一致（含缩进），" ++
  "且默认要唯一——拿不准就先 read 回来照抄，出现多次时多带几行上下文。" ++
  "写很长的新文件时分多次 append 追加，不要挤在单次调用里。\n" ++
  "\n涉及「未来某个时刻」的请求（定时提醒、延时提醒、每天/每周重复提醒），" ++
  "一律用 cron 工具登记：op=delay 表示「N 秒后」，op=add 表示重复。" ++
  "登记后系统会在到点时主动推送给用户，**不占用当前对话**，你无需等待，" ++
  "应当立刻告知用户已设好并结束本轮。绝不要用 shell 睡眠" ++
  "（Start-Sleep / sleep / timeout / ping）或反复查时间来等待——" ++
  "那会卡住整个对话且提醒不会生效。用户问起已设的提醒时用 op=list 查证，" ++
  "不要凭猜测答复。\n" ++
  "\n宣布要做某件事之后，必须在同一轮里真的发起工具调用，不要说完就停下" ++
  "等用户把结果贴回来——工具由你自己调用、结果会直接回到你手里。\n"

def skillHeader : String :=
  "\n# 技能\n可用技能（正文不在本提示词内，用 file 工具 read " ++
  "`~/.oc/skills/<slug>/SKILL.md` 按需读取，slug 即括号内路径；指纹变了要重读）：\n"

def toolLine (t : ToolBrief) : String := "- " ++ t.name ++ ": " ++ t.description ++ "\n"

def skillLine (s : Skill) : String :=
  "- " ++ s.name ++ "（" ++ s.slug ++ "）— " ++ s.description ++ " [fingerprint " ++ s.fingerprint ++ "]\n"

def memLine (m : MemLine) : String := "- " ++ m.text ++ "\n"

/-- A section of the prompt: the lines of a list, sorted by a key.  Elements with the same key keep their
order. -/
def listed {α : Type} (header footer : String) (key line : α → String) (xs : List α) : String :=
  if xs.isEmpty then ""
  else header ++ String.join ((xs.insertionSort fun a b => key a ≤ key b).map line) ++ footer

/-- The soul and the environment, which no list goes into. -/
def opening (inputs : PromptInputs) : String :=
  let platform := trim inputs.platform
  let model := trim inputs.model
  "# 人格\n" ++ trim inputs.soul ++ "\n" ++
    if platform = "" ∧ model = "" then ""
    else
      "\n# 运行环境\n" ++ (if platform = "" then "" else platform ++ "\n") ++
        if model = "" then "" else renderModelLine model (trim inputs.provider) inputs.endpoint ++ "\n"

def toolSection (tools : List ToolBrief) : String := listed "\n# 工具\n" toolGuide ToolBrief.name toolLine tools

def skillSection (skills : List Skill) : String := listed skillHeader "" Skill.name skillLine skills

def memSection (bootstrap : List MemLine) : String := listed "\n# 记忆\n" "" MemLine.key memLine bootstrap

def renderSystemPrompt (inputs : PromptInputs) : RenderedPrompt where
  stablePrefix := opening inputs ++ toolSection inputs.tools ++ skillSection inputs.skills ++ memSection inputs.bootstrap
  volatileSuffix := "# 当前时间\n" ++ inputs.now

/-! ## One section -/

/-- A section comes out the same in every order exactly where the lines of elements with one key commute. -/
theorem listed_iff {α : Type} (header footer : String) (key line : α → String) (xs : List α) :
    (∀ xs' : List α, xs'.Perm xs → listed header footer key line xs' = listed header footer key line xs) ↔
      ∀ a ∈ xs, ∀ b ∈ xs, key a = key b → line a ++ line b = line b ++ line a := by
  have htotal : Std.Total fun a b => key a ≤ key b := ⟨fun a b => le_total (key a) (key b)⟩
  have htrans : IsTrans α fun a b => key a ≤ key b := ⟨fun a b c => le_trans⟩
  have hlines (xs' : List α) (hperm : xs'.Perm xs) :
      listed header footer key line xs' = listed header footer key line xs ↔
        ((xs'.insertionSort fun a b => key a ≤ key b).flatMap fun a => (line a).toList) =
          (xs.insertionSort fun a b => key a ≤ key b).flatMap fun a => (line a).toList := by
    unfold listed
    rw [hperm.isEmpty_eq]
    cases xs with
    | nil => simp [List.perm_nil.1 hperm]
    | cons x xs =>
      simp only [List.isEmpty_cons, Bool.false_eq_true, ↓reduceIte, ← String.toList_inj, String.toList_append,
        String.toList_join, List.flatMap_map, List.append_cancel_right_eq, List.append_cancel_left_eq]
  rw [forall₂_congr hlines, Ties.flatMap_insertionSort_iff]
  simp only [← String.toList_append, String.toList_inj]
  constructor
  · exact fun h a ha b hb hkey => h a ha b hb hkey.le hkey.ge
  · exact fun h a ha b hb hab hba => h a ha b hb (le_antisymm hab hba)

/-- With a key of its own for each element, no order leaves a trace. -/
theorem listed_perm {α : Type} (header footer : String) {key line : α → String} {xs xs' : List α}
    (hnodup : (xs.map key).Nodup) (hperm : xs'.Perm xs) :
    listed header footer key line xs' = listed header footer key line xs := by
  refine (listed_iff header footer key line xs).2 (fun a ha b hb hkey => ?_) xs' hperm
  rw [List.inj_on_of_nodup_map hnodup ha hb hkey]

/-! ## The whole prompt -/

/-- The order of the inputs leaves no trace, and the time none in the prefix. -/
def Stable (inputs : PromptInputs) : Prop :=
  (∀ tools skills bootstrap, tools.Perm inputs.tools → skills.Perm inputs.skills →
      bootstrap.Perm inputs.bootstrap →
      renderSystemPrompt { inputs with tools, skills, bootstrap } = renderSystemPrompt inputs) ∧
    ∀ now, (renderSystemPrompt { inputs with now }).stablePrefix = (renderSystemPrompt inputs).stablePrefix

/-- Only the section of the skills can show the order of the inputs. -/
theorem stable_iff_section {inputs : PromptInputs} (htools : (inputs.tools.map (·.name)).Nodup)
    (hmem : (inputs.bootstrap.map (·.key)).Nodup) :
    Stable inputs ↔ ∀ skills : List Skill, skills.Perm inputs.skills →
      skillSection skills = skillSection inputs.skills := by
  constructor
  · intro h skills hskills
    have hrender := h.1 inputs.tools skills inputs.bootstrap (.refl _) hskills (.refl _)
    have hprefix := congrArg (String.toList ·.stablePrefix) hrender
    simp only [renderSystemPrompt, opening, String.toList_append, List.append_assoc, List.append_cancel_left_eq] at hprefix
    exact String.toList_inj.1 (List.append_cancel_right hprefix)
  · intro hskills
    refine ⟨fun tools skills bootstrap ht hs hb => ?_, fun now => rfl⟩
    simp only [renderSystemPrompt, opening, toolSection, memSection]
    rw [listed_perm _ _ htools ht, hskills skills hs, listed_perm _ _ hmem hb]

/-- Two lines of one name commute only where the slugs are the same, or hold the bracket behind them. -/
theorem slug_eq_of_comm {a b : Skill} (hname : a.name = b.name) (ha : '）' ∉ a.slug.toList) (hb : '）' ∉ b.slug.toList)
    (hcomm : skillLine a ++ skillLine b = skillLine b ++ skillLine a) : a.slug = b.slug := by
  have hchars := congrArg String.toList hcomm
  have hbracket : "）— ".toList = '）' :: "— ".toList := by decide
  simp only [skillLine, String.toList_append, hname, List.append_assoc, List.append_cancel_left_eq, hbracket,
    List.cons_append] at hchars
  have hslug (s : String) (hs : '）' ∉ s.toList) (rest : List Char) :
      (s.toList ++ '）' :: rest).takeWhile (· != '）') = s.toList := by
    have hother : ∀ c ∈ s.toList, (c != '）') = true := fun c hc => bne_iff_ne.2 (ne_of_mem_of_not_mem hc hs)
    rw [List.takeWhile_append_of_pos hother]
    simp
  have hfirst := congrArg (List.takeWhile (· != '）')) hchars
  rw [hslug _ ha, hslug _ hb] at hfirst
  exact String.toList_inj.1 hfirst

/-- Without that bracket in a slug, the order leaves no trace exactly where the names are distinct. -/
theorem stable_iff_names {inputs : PromptInputs} (htools : (inputs.tools.map (·.name)).Nodup)
    (hmem : (inputs.bootstrap.map (·.key)).Nodup) (hslugs : (inputs.skills.map (·.slug)).Nodup)
    (hplain : ∀ a ∈ inputs.skills, '）' ∉ a.slug.toList) :
    Stable inputs ↔ (inputs.skills.map (·.name)).Nodup := by
  rw [stable_iff_section htools hmem]
  refine (listed_iff skillHeader "" Skill.name skillLine inputs.skills).trans ?_
  constructor
  · intro h
    refine (List.nodup_map_iff_inj_on hslugs.of_map).2 fun a ha b hb hname => ?_
    exact List.inj_on_of_nodup_map hslugs ha hb (slug_eq_of_comm hname (hplain a ha) (hplain b hb) (h a ha b hb hname))
  · intro h a ha b hb hname
    rw [List.inj_on_of_nodup_map h ha hb hname]

/-- The order of the inputs leaves a trace exactly where two skills of one name have lines that do not
commute. -/
theorem reorder_iff (inputs : PromptInputs) (htools : (inputs.tools.map (·.name)).Nodup)
    (hmem : (inputs.bootstrap.map (·.key)).Nodup) :
    Stable inputs ↔ ∀ a ∈ inputs.skills, ∀ b ∈ inputs.skills, a.name = b.name →
      skillLine a ++ skillLine b = skillLine b ++ skillLine a :=
  (stable_iff_section htools hmem).trans (listed_iff skillHeader "" Skill.name skillLine inputs.skills)

/-- Inputs with these skills, two tools and two memories. -/
def sample (skills : List Skill) : PromptInputs where
  soul := "你是 oc。"
  platform := ""
  model := ""
  provider := ""
  endpoint := none
  bootstrap := [⟨"k2", "B"⟩, ⟨"k1", "A"⟩]
  skills := skills
  tools := [⟨"b", "B"⟩, ⟨"a", "A"⟩]
  now := "T"

def pdfSkill (slug : String) : Skill where
  name := "pdf"
  slug := slug
  description := ""
  body := []
  fingerprint := ""
  enabled := true
  os := []

/-- Two skills with names of their own. -/
theorem reorder_iff_names : Stable (sample [pdfSkill "pdf", { pdfSkill "csv" with name := "csv" }]) := by
  refine (reorder_iff _ (by decide) (by decide)).2 fun a ha b hb hname => ?_
  have hnames : ([pdfSkill "pdf", { pdfSkill "csv" with name := "csv" }].map Skill.name).Nodup := by decide
  rw [List.inj_on_of_nodup_map hnames ha hb hname]

/-- Two publishers may each have a skill of one name. -/
theorem reorder_fails : ¬ ∀ inputs : PromptInputs, (inputs.tools.map (·.name)).Nodup →
    (inputs.skills.map (·.slug)).Nodup → (inputs.bootstrap.map (·.key)).Nodup → Stable inputs := by
  intro h
  have hstable := h (sample [pdfSkill "@a/pdf", pdfSkill "@b/pdf"]) (by decide) (by decide) (by decide)
  have hsection := (stable_iff_section (by decide) (by decide)).1 hstable
  have hcomm := (listed_iff skillHeader "" Skill.name skillLine _).1 hsection (pdfSkill "@a/pdf") List.mem_cons_self
    (pdfSkill "@b/pdf") (List.mem_cons_of_mem _ List.mem_cons_self) rfl
  revert hcomm
  decide

end Prompt

end OhMyClaw

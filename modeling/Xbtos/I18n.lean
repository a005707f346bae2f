import Xbtos.Strings

/-! The messages of kernel/i18n/i18n.cpp, in UTF-8. -/
namespace Xbtos.I18n
open Strings

inductive Language
  | en | zhCn
deriving DecidableEq

inductive MessageId
  | welcome | prompt | helpHeader | helpCore | helpFiles | helpLang | unknownCommand | fileCreated
  | fileDeleted | fileNotFound | fileWriteOk | usageTouch | usageRead | usageWrite | languageEn
  | languageZh | about | sysinfoHeader | currentPath
deriving DecidableEq

def englishMessages : MessageId → String
  | .welcome => "Welcome to XBTOS-LC Alpha\nType 'help' for available commands.\n"
  | .prompt => "XBTOS-LC> "
  | .helpHeader => "Available commands:\n"
  | .helpCore => " help clear about sysmit dirs lang\n"
  | .helpFiles => " lst touch rdf rec append rm stat\n"
  | .helpLang => " lang en | lang zh\n"
  | .unknownCommand => "Unknown command: "
  | .fileCreated => "File created.\n"
  | .fileDeleted => "File deleted.\n"
  | .fileNotFound => "File not found.\n"
  | .fileWriteOk => "File written.\n"
  | .usageTouch => "Usage: touch <filename>\n"
  | .usageRead => "Usage: rdf <filename>\n"
  | .usageWrite => "Usage: rec <filename> <text>\n"
  | .languageEn => "Language switched to English.\n"
  | .languageZh => "已切换到中文。\n"
  | .about => "XBTOS-LC Alpha 1029\nDeveloped by XBT. Technology Studio 2026\n"
  | .sysinfoHeader => "=== System Information ===\n"
  | .currentPath => "Current Path: /\n"

def chineseMessages : MessageId → String
  | .welcome => "欢迎使用 XBTOS-LC Alpha\n输入 help 查看命令。\n"
  | .prompt => "XBTOS-LC> "
  | .helpHeader => "可用命令：\n"
  | .helpCore => " help clear about sysmit dirs lang\n"
  | .helpFiles => " lst touch rdf rec append rm stat\n"
  | .helpLang => " lang en | lang zh\n"
  | .unknownCommand => "未知命令："
  | .fileCreated => "文件已创建。\n"
  | .fileDeleted => "文件已删除。\n"
  | .fileNotFound => "文件不存在。\n"
  | .fileWriteOk => "文件已写入。\n"
  | .usageTouch => "用法：touch <文件名>\n"
  | .usageRead => "用法：rdf <文件名>\n"
  | .usageWrite => "用法：rec <文件名> <文本>\n"
  | .languageEn => "Language switched to English.\n"
  | .languageZh => "已切换到中文。\n"
  | .about => "XBTOS-LC Alpha 1029\n由 XBT. Technology Studio 开发，2026\n"
  | .sysinfoHeader => "=== 系统信息 ===\n"
  | .currentPath => "当前路径：/\n"

/-- The language until one is set. -/
def loadedLanguage : Language := .zhCn

def utf8 (text : String) : Bytes := text.toList.flatMap String.utf8EncodeChar

/-- i18n::text, with the terminator of the message. -/
def text (currentLanguage : Language) (id : MessageId) : Bytes :=
  match currentLanguage with
  | .zhCn => utf8 (chineseMessages id) ++ [0]
  | .en => utf8 (englishMessages id) ++ [0]

/-- kstrcmp(text, word) == 0 -/
def isWord (text : Bytes) (word : String) : Option Bool := do
  return (← kstrcmp text (literal word ++ [0])) = 0

def setLanguageByName (name : Option Bytes) (currentLanguage : Language) : Option (Bool × Language) :=
  match name with
  | none => some (false,currentLanguage)
  | some name => do
    if ← isWord name "zh" then return (true,.zhCn)
    if ← isWord name "cn" then return (true,.zhCn)
    if ← isWord name "zh-cn" then return (true,.zhCn)
    if ← isWord name "en" then return (true,.en)
    if ← isWord name "us" then return (true,.en)
    return (false,currentLanguage)

example : text .zhCn .languageZh =
    [0xE5,0xB7,0xB2,0xE5,0x88,0x87,0xE6,0x8D,0xA2,0xE5,0x88,0xB0,0xE4,0xB8,0xAD,0xE6,0x96,0x87,0xE3,
      0x80,0x82,0x0A,0] := by decide

end Xbtos.I18n

/-!
# Dialects

The keywords of Gherkin in five of the languages a feature file may be written in. There are many
more: a file in one of them is refused here as one in an unknown language. Of two keywords of which
one begins with the other, the one listed first counts. A bullet may stand for any keyword of a
step; since it is tried first where a context is expected, it always begins a context step.
-/

namespace StepLinker.Gherkin

structure Dialect where
  feature : List String
  background : List String
  rule : List String
  scenario : List String
  outline : List String
  examples : List String
  context : List String
  action : List String
  outcome : List String
  conjunction : List String
  contrast : List String
  deriving DecidableEq, Repr

namespace Dialect

def bullet : String := "* "

def english : Dialect where
  feature := ["Feature", "Business Need", "Ability"]
  background := ["Background"]
  rule := ["Rule"]
  scenario := ["Example", "Scenario"]
  outline := ["Scenario Outline", "Scenario Template"]
  examples := ["Examples", "Scenarios"]
  context := [bullet, "Given "]
  action := [bullet, "When "]
  outcome := [bullet, "Then "]
  conjunction := [bullet, "And "]
  contrast := [bullet, "But "]

def french : Dialect where
  feature := ["Fonctionnalité"]
  background := ["Contexte"]
  rule := ["Règle"]
  scenario := ["Exemple", "Scénario"]
  outline := ["Plan du scénario", "Plan du Scénario"]
  examples := ["Exemples"]
  context := [bullet, "Soit ", "Sachant que ", "Sachant qu'", "Sachant ", "Etant donné que ",
    "Etant donné qu'", "Etant donné ", "Etant donnée ", "Etant donnés ", "Etant données ",
    "Étant donné que ", "Étant donné qu'", "Étant donné ", "Étant donnée ", "Étant donnés ",
    "Étant données "]
  action := [bullet, "Quand ", "Lorsque ", "Lorsqu'"]
  outcome := [bullet, "Alors ", "Donc "]
  conjunction := [bullet, "Et que ", "Et qu'", "Et "]
  contrast := [bullet, "Mais que ", "Mais qu'", "Mais "]

def german : Dialect where
  feature := ["Funktionalität", "Funktion"]
  background := ["Grundlage", "Hintergrund", "Voraussetzungen", "Vorbedingungen"]
  rule := ["Rule", "Regel"]
  scenario := ["Beispiel", "Szenario"]
  outline := ["Szenariogrundriss", "Szenarien"]
  examples := ["Beispiele"]
  context := [bullet, "Angenommen ", "Gegeben sei ", "Gegeben seien "]
  action := [bullet, "Wenn "]
  outcome := [bullet, "Dann "]
  conjunction := [bullet, "Und "]
  contrast := [bullet, "Aber "]

def russian : Dialect where
  feature := ["Функция", "Функциональность", "Функционал", "Свойство"]
  background := ["Предыстория", "Контекст"]
  rule := ["Правило"]
  scenario := ["Пример", "Сценарий"]
  outline := ["Структура сценария", "Шаблон сценария"]
  examples := ["Примеры"]
  context := [bullet, "Допустим ", "Дано ", "Пусть "]
  action := [bullet, "Когда ", "Если "]
  outcome := [bullet, "То ", "Затем ", "Тогда "]
  conjunction := [bullet, "И ", "К тому же ", "Также "]
  contrast := [bullet, "Но ", "А ", "Иначе "]

def japanese : Dialect where
  feature := ["フィーチャ", "機能"]
  background := ["背景"]
  rule := ["Rule"]
  scenario := ["シナリオ"]
  outline := ["シナリオアウトライン", "シナリオテンプレート", "テンプレ", "シナリオテンプレ"]
  examples := ["例", "サンプル"]
  context := [bullet, "前提"]
  action := [bullet, "もし"]
  outcome := [bullet, "ならば"]
  conjunction := [bullet, "かつ"]
  contrast := [bullet, "しかし", "但し", "ただし"]

def ofTag? : String → Option Dialect
  | "en" => some english
  | "fr" => some french
  | "de" => some german
  | "ru" => some russian
  | "ja" => some japanese
  | _ => none

def steps (d : Dialect) : List String :=
  d.context ++ d.action ++ d.outcome ++ d.conjunction ++ d.contrast

end Dialect

end StepLinker.Gherkin

import MoltBrowser.GenerationSchedulerTurns
import MoltBrowser.AutomationScriptRoundTrip
import MoltBrowser.AutomationRunnerDrafts
import MoltBrowser.AutomationCalls
import MoltBrowser.AutomationRunnerCalls
import MoltBrowser.AutomationRetries
import MoltBrowser.AutomationStructured
import MoltBrowser.AutomationResumed
import MoltBrowser.AutomationScriptFile
import MoltBrowser.StaleWrites
import MoltBrowser.AutomationRunStats
import MoltBrowser.NamedObjects
import MoltBrowser.AutomationStorage
import MoltBrowser.AutomationStorageMoves
import MoltBrowser.AutomationScheduler
import MoltBrowser.AutomationSchedulerFires
import MoltBrowser.AutomationSchedulerCatchUp
import MoltBrowser.AutomationSchedulerEdits
import MoltBrowser.AutomationCron
import MoltBrowser.WebAIConversation
import MoltBrowser.WebAISession
import MoltBrowser.WebAISessionOrder
import MoltBrowser.TranslationPieces
import MoltBrowser.TranslationPlan
import MoltBrowser.PageTranslationJob
import MoltBrowser.TranslationPlanRuns
import MoltBrowser.PageTranslationReports
import MoltBrowser.ConfirmationWords
import MoltBrowser.GestureBook
import MoltBrowser.BrowserWords
import MoltBrowser.GestureBookRuns
import MoltBrowser.VoiceSessionLogic
import MoltBrowser.VoiceSessionSources
import MoltBrowser.VoiceSessionLag
import MoltBrowser.SampleRing
import MoltBrowser.SpeechListener
import MoltBrowser.SpeechListenerCourse
import MoltBrowser.HelperEventSequence
import MoltBrowser.SpeechListenerCycles
import MoltBrowser.SpeechListenerUtterances
import MoltBrowser.SpeechFrames
import MoltBrowser.VoiceFrames
import MoltBrowser.HelperPipes
import MoltBrowser.KnuthMorrisPratt
import MoltBrowser.StopSequences
import MoltBrowser.DisplayText
import MoltBrowser.StreamFilters
import MoltBrowser.TokenStream
import MoltBrowser.MemoryIndex
import MoltBrowser.Rewriting
import MoltBrowser.UntrustedText
import MoltBrowser.SpeechEvents
import MoltBrowser.HelperLines
import MoltBrowser.HelperLinesRead
import MoltBrowser.PageReading
import MoltBrowser.SpeechEventsRead
import MoltBrowser.ReadingCourse
import MoltBrowser.HiddenReasoning
import MoltBrowser.BoundedJson
import MoltBrowser.JsonStrings
import MoltBrowser.BoundedJsonLanguage
import MoltBrowser.BoundedJsonWrite
import MoltBrowser.ConditionalBlocks
import MoltBrowser.FilterConditions
import MoltBrowser.FilterPreprocess
import MoltBrowser.SiteShares
import MoltBrowser.SiteLru
import MoltBrowser.SiteIsolation
import MoltBrowser.WeightedSlots
import MoltBrowser.WeightedSlotsFair
import MoltBrowser.TorControlReplies
import MoltBrowser.TorrcBuilder
import MoltBrowser.TorrcSafety
import MoltBrowser.CssTokens
import MoltBrowser.CssTokenStops
import MoltBrowser.CssRules
import MoltBrowser.HideStylesheet
import MoltBrowser.FairQueue
import MoltBrowser.FairQueueRuns
import MoltBrowser.SiteTotals
import MoltBrowser.WriteAllowances
import MoltBrowser.BackgroundFetchSites
import MoltBrowser.BackgroundFetchRuns
import MoltBrowser.StreamValidator
import MoltBrowser.AutomationVariables
import MoltBrowser.AutomationChaining
import MoltBrowser.ModelDownload
import MoltBrowser.ModelDownloadRuns
import MoltBrowser.WebAIConversationRuns
import MoltBrowser.AutomationLocatorsProbe
import MoltBrowser.AutomationSecretScrub
import MoltBrowser.AgentRunDraftPieces
import MoltBrowser.WebAIConversationShape
import MoltBrowser.VoiceSessionDeadlines
import MoltBrowser.SpeechListenerSilence
import MoltBrowser.WebAIDeviceFacts
import MoltBrowser.WebAISitePermissions
import MoltBrowser.GestureBookChains
import MoltBrowser.TranslationPiecesShape
import MoltBrowser.ConfigFramesRead
import MoltBrowser.PersonalVocabularySaved
import MoltBrowser.ConfirmationWordsHeld
import MoltBrowser.RemoveParam
import MoltBrowser.PieceSplits
import MoltBrowser.Hotwords
import MoltBrowser.PhoneticDistances
import MoltBrowser.StyleSanitizing
import MoltBrowser.MemoryAttribution
import MoltBrowser.ProceduralBounds
import MoltBrowser.ReadingLengths
import MoltBrowser.RegexAdmission
import MoltBrowser.LittleEndian
import MoltBrowser.EngineSerialization
import MoltBrowser.BridgeLines
import MoltBrowser.SiteSharesKeep
import MoltBrowser.CommitRates
import MoltBrowser.NonceCookies
import MoltBrowser.NonceGroups
import MoltBrowser.ChunkedWalks
import MoltBrowser.ConnectionPreemption
import MoltBrowser.ContextBudget
import MoltBrowser.ContextRefusals
import MoltBrowser.HarmonyChannels
import MoltBrowser.CrashLoopGuard
import MoltBrowser.Utf8Assembly
import MoltBrowser.Utf8Recognisers
import MoltBrowser.InsertedMarks
import MoltBrowser.SpecialTokens
import MoltBrowser.ImagePlans
import MoltBrowser.GpuOffload
import MoltBrowser.RuleDerivations
import MoltBrowser.IndexedTries
import MoltBrowser.GbnfText
import MoltBrowser.WorkLists
import MoltBrowser.LiteralRules
import MoltBrowser.GpuDriverRecord
import MoltBrowser.GpuRecordViews
import MoltBrowser.GpuRecordRestarts
import MoltBrowser.GpuRecordHistory

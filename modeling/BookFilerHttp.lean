import BookFilerHttp.OrdMapProofs
import BookFilerHttp.RunsProofs
import BookFilerHttp.StableSortProofs
import BookFilerHttp.ByteStringProofs
import BookFilerHttp.FramingProofs
import BookFilerHttp.MachineIntProofs
import BookFilerHttp.JsonValueProofs
import BookFilerHttp.HttpUriCodecProofs
import BookFilerHttp.BoostUrlParseProofs
import BookFilerHttp.BoostUrlBaseProofs
import BookFilerHttp.BoostUrlAddressProofs
import BookFilerHttp.HttpQueryProofs
import BookFilerHttp.HttpUrlProofs
import BookFilerHttp.HttpRequestProofs
import BookFilerHttp.HttpResponseProofs
import BookFilerHttp.HttpRouteProofs
import BookFilerHttp.HttpDispatchProofs
import BookFilerHttp.HttpConnectionProofs
import BookFilerHttp.HttpGuardProofs
import BookFilerHttp.HttpServerProofs
import BookFilerHttp.HttpClientProofs
import BookFilerHttp.HttpQueryGrammarProofs
import BookFilerHttp.HttpReparseProofs
import BookFilerHttp.HttpHostProofs
import BookFilerHttp.HttpUrlSettersProofs
import BookFilerHttp.HttpExchangeProofs
import BookFilerHttp.HttpCookieProofs
import BookFilerHttp.HttpCookieAgeProofs
import BookFilerHttp.HttpSettingsProofs
import BookFilerHttp.CertificateManagerProofs
import BookFilerHttp.CertificateOptionsProofs
import BookFilerHttp.HttpModuleProofs
import BookFilerHttp.HttpListenerProofs
import BookFilerHttp.MustacheProofs
import BookFilerHttp.TemplateProofs
import BookFilerHttp.SegmentedBufferProofs
import BookFilerHttp.BoostUrlGrammarProofs
import BookFilerHttp.BoostUrlBufferProofs
import BookFilerHttp.NestingProofs
import BookFilerHttp.MustacheTreeProofs
import BookFilerHttp.MustacheRenderProofs
import BookFilerHttp.MustacheDocumentProofs
import BookFilerHttp.TemplateEngineProofs
import BookFilerHttp.LevelOrderProofs
import BookFilerHttp.SettingsManagerProofs
import BookFilerHttp.ModuleLoaderProofs
